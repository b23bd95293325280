import UrlTraveler.Database.FavIcons

/-! `DataCenterModule`: the icons of web sites.

    An icon is kept under the domain of a page, asked for as the file favicon.ico of that domain, and
    filed, when it arrives, under the domain of the address it was asked for:

        u ──GetDomainFromUrl──▶ k ──▶ k/favicon.ico ──(web)──▶ GetDomainFromUrl ──▶ k ?

    `GetDomainFromUrl` takes the scheme off and puts it back. For https it looks for the scheme in
    what is left without it, so the domain of an https page has none; the address that is asked for
    has none either, and the icon is filed under the empty text. -/

namespace UrlTraveler.DataCenter.Icons
open Maps Database

/-! ### GetDomainFromUrl -/

def http : WStr := ['h', 't', 't', 'p', ':', '/', '/']
def https : WStr := ['h', 't', 't', 'p', 's', ':', '/', '/']

/-- `SubStr`, whose arguments are 16 bits wide. -/
def subStr (s : WStr) (nBegin nNumber : ℕ) : WStr :=
  (s.drop (nBegin % 0x10000)).take (nNumber % 0x10000)

def left (s : WStr) (nLength : ℕ) : WStr := subStr s 0 (min nLength s.length)

def isSlash (c : Char) : Bool := c = '\\' || c = '/'

/-- `FindFirstCharOf(L"\\/")`. -/
def findFirstCharOf (s : WStr) : Option ℕ := s.findIdx? isSlash

/-- The scheme in front of the domain; the second test looks at the domain. -/
def includePrefix (strUrl strDomain : WStr) : WStr :=
  if left strUrl 7 = http then http ++ strDomain
  else if left strDomain 8 = https then https ++ strDomain
  else strDomain

def getDomainFromUrl (strUrl : WStr) (bIncludePrefix : Bool) : WStr :=
  if left strUrl 7 ≠ http ∧ left strUrl 8 ≠ https then []
  else
    let strDomain :=
      if left strUrl 7 = http then subStr strUrl 7 (strUrl.length - 1)
      else if left strUrl 8 = https then subStr strUrl 8 (strUrl.length - 1)
      else []
    match findFirstCharOf strDomain with
    | none => if bIncludePrefix then includePrefix strUrl strDomain else strDomain
    | some nIndex =>
      let strDomain := subStr strDomain 0 nIndex
      if bIncludePrefix then includePrefix strUrl strDomain else strDomain

/-! ### The handlers -/

/-- `STRNCPY` into an array of MAX_PATH characters. -/
def strncpy (s : WStr) : WStr := s.take 259

/-- The icons of the module, the database, and the addresses that were asked for. -/
structure Center (HICON : Type) where
  m_mapDomain2Icon : List (WStr × HICON) := []
  m_hDefaultIcon : Option HICON := none
  db : Option Table := none
  requests : List WStr := []
  saves : List (WStr × List UInt8) := []
  arrived : List (WStr × HICON) := []

def favIconFile : WStr := ['/', 'f', 'a', 'v', 'i', 'c', 'o', 'n', '.', 'i', 'c', 'o']

def favIconUrl (wstrDomain : WStr) : WStr := wstrDomain ++ favIconFile

variable {HICON : Type} (p : Platform HICON)

/-- The icon that is found, or the default and a request. -/
def onService_GetFavoriteIcon (s : Center HICON) (szDomain : WStr) : Center HICON × Option HICON :=
  if szDomain = [] then (s, none)
  else
    let wstrDomain := getDomainFromUrl szDomain true
    match s.m_mapDomain2Icon.lookup wstrDomain with
    | some hIcon => (s, some hIcon)
    | none =>
      match getFavoriteIcon p s.db (strncpy wstrDomain) with
      | (db, some hcon) =>
        ({ s with db, m_mapDomain2Icon := setKey s.m_mapDomain2Icon wstrDomain hcon }, some hcon)
      | (db, none) =>
        ({ s with db, requests := s.requests ++ [strncpy (favIconUrl wstrDomain)] }, s.m_hDefaultIcon)

/-- The save is an event to the database module, the rest a notice to the main window. -/
def onEvent_FavoriteIconArrive (s : Center HICON) (szFavoriteUrl : WStr) (pIconData : List UInt8) :
    Center HICON :=
  match p.createIconFromBuffer pIconData with
  | none => s
  | some hIcon =>
    let wstrDomain := getDomainFromUrl szFavoriteUrl true
    { s with m_mapDomain2Icon := setKey s.m_mapDomain2Icon wstrDomain hIcon,
             saves := s.saves ++ [(strncpy wstrDomain, pIconData)],
             arrived := s.arrived ++ [(strncpy wstrDomain, hIcon)] }

/-! ### What the domain is -/

/-- The text behind a scheme, as much as a 16-bit count takes, up to the first slash. -/
def host (scheme strUrl : WStr) : WStr :=
  (subStr strUrl scheme.length (strUrl.length - 1)).takeWhile fun c => !isSlash c

theorem left_eq {n : ℕ} (hn : n < 0x10000) (s : WStr) : left s n = s.take n := by
  have hmin : min n s.length % 0x10000 = min n s.length := Nat.mod_eq_of_lt (by omega)
  rw [left, subStr, Nat.zero_mod, List.drop_zero, hmin, ← List.take_take, List.take_length]

theorem left_http (u : WStr) : left u 7 = http ↔ http <+: u := by
  rw [left_eq (by norm_num), List.prefix_iff_eq_take]
  exact eq_comm

theorem left_https (u : WStr) : left u 8 = https ↔ https <+: u := by
  rw [left_eq (by norm_num), List.prefix_iff_eq_take]
  exact eq_comm

theorem not_http_of_https {u : WStr} (h : https <+: u) : ¬ http <+: u := by
  intro h'
  have hpre : http <+: https := List.prefix_of_prefix_length_le h' h (by decide)
  revert hpre
  decide

theorem length_subStr_lt (s : WStr) (nBegin nNumber : ℕ) :
    (subStr s nBegin nNumber).length < 0x10000 := by
  have hmod := Nat.mod_lt nNumber (by norm_num : 0 < 0x10000)
  rw [subStr, List.length_take]
  omega

/-- Both ways the text is cut at the first slash. -/
theorem cut_eq {s : WStr} (hs : s.length < 0x10000) (f : WStr → WStr) :
    (match findFirstCharOf s with
      | none => f s
      | some nIndex => f (subStr s 0 nIndex)) = f (s.takeWhile fun c => !isSlash c) := by
  rw [findFirstCharOf]
  cases hfind : s.findIdx? isSlash with
  | none =>
    have hall := List.findIdx?_eq_none_iff.mp hfind
    have htake : s.takeWhile (fun c => !isSlash c) = s :=
      List.takeWhile_eq_self_iff.mpr fun c hc => by simp [hall c hc]
    simp only [htake]
  | some i =>
    have hidx := (List.findIdx?_eq_some_iff_findIdx_eq.mp hfind)
    have hmod : i % 0x10000 = i := Nat.mod_eq_of_lt (by omega)
    have htake : s.takeWhile (fun c => !isSlash c) = s.take i := by
      rw [List.takeWhile_eq_take_findIdx_not]
      simp [hidx.2]
    simp only [htake, subStr, Nat.zero_mod, List.drop_zero, hmod]

theorem host_noSlash (scheme u : WStr) : ∀ c ∈ host scheme u, isSlash c = false := by
  intro c hc
  simpa using List.mem_takeWhile_imp hc

theorem getDomainFromUrl_http {u : WStr} (h : http <+: u) :
    getDomainFromUrl u true = http ++ host http u := by
  have hleft := (left_http u).mpr h
  rw [getDomainFromUrl, if_neg (by simp [hleft]), if_pos hleft]
  have hcut := cut_eq (length_subStr_lt u 7 (u.length - 1)) (includePrefix u)
  simp only [if_true]
  rw [hcut, includePrefix, if_pos hleft]
  rfl

/-- The host has no slash, so it does not begin with a scheme. -/
theorem getDomainFromUrl_https {u : WStr} (h : https <+: u) :
    getDomainFromUrl u true = host https u := by
  have hleft := (left_https u).mpr h
  have hnot : left u 7 ≠ http := fun h' => not_http_of_https h ((left_http u).mp h')
  rw [getDomainFromUrl, if_neg (by simp [hleft]), if_neg hnot, if_pos hleft]
  have hcut := cut_eq (length_subStr_lt u 8 (u.length - 1)) (includePrefix u)
  simp only [if_true]
  rw [hcut, includePrefix, if_neg hnot, if_neg]
  · rfl
  · intro h'
    have hmem : '/' ∈ host https u := ((left_https _).mp h').subset (by decide)
    have hslash := host_noSlash https u '/' hmem
    revert hslash
    decide

theorem length_host_lt (scheme u : WStr) : (host scheme u).length < 0x10000 :=
  (List.takeWhile_sublist _).length_le.trans_lt (length_subStr_lt _ _ _)

theorem length_host_le (u : WStr) : (host http u).length ≤ u.length - 7 := by
  refine (List.takeWhile_sublist _).length_le.trans ?_
  rw [subStr, List.length_take, List.length_drop]
  exact Nat.min_le_right _ _

/-- What the host of a longer address is, where the count takes `n` characters of it. -/
theorem host_append {h t : WStr} (hh : ∀ c ∈ h, isSlash c = false)
    (ht : ∀ c ∈ t.head?, isSlash c = true) {n : ℕ} (hn : n = (h.length + t.length + 6) % 0x10000) :
    host http (http ++ h ++ t) = h.take n := by
  have hlen : (http ++ h ++ t).length - 1 = h.length + t.length + 6 := by
    simp only [List.length_append, http, List.length_cons, List.length_nil]
    omega
  have hdrop : (http ++ h ++ t).drop (http.length % 0x10000) = h ++ t := by
    rw [show http.length % 0x10000 = http.length from rfl, List.append_assoc, List.drop_left]
  have hall : ∀ c ∈ h.take n, (!isSlash c) = true := by
    intro c hc
    simp [hh c (List.mem_of_mem_take hc)]
  rw [host, subStr, hdrop, hlen, ← hn, List.take_append, List.takeWhile_append_of_pos hall]
  have hrest : (t.take (n - h.length)).takeWhile (fun c => !isSlash c) = [] := by
    cases t with
    | nil => simp
    | cons c t =>
      cases n - h.length with
      | zero => rfl
      | succ m => simp [ht c rfl]
  rw [hrest, List.append_nil]

/-! ### The key of an icon -/

/-- The address that is asked for has the scheme of the page, and is filed under the domain it was
    asked for. -/
structure FoundAgain (u : WStr) : Prop where
  http : http <+: u → http <+: favIconUrl (getDomainFromUrl u true)
  https : https <+: u → https <+: favIconUrl (getDomainFromUrl u true)
  key : getDomainFromUrl (favIconUrl (getDomainFromUrl u true)) true = getDomainFromUrl u true

theorem getDomainFromUrl_append {h t : WStr} (hh : ∀ c ∈ h, isSlash c = false)
    (ht : ∀ c ∈ t.head?, isSlash c = true) (hlen : h.length + t.length + 6 < 0x10000) :
    getDomainFromUrl (http ++ h ++ t) true = http ++ h := by
  rw [getDomainFromUrl_http (List.append_assoc http h t ▸ List.prefix_append _ _),
    host_append hh ht (Nat.mod_eq_of_lt hlen).symm, List.take_of_length_le (by omega)]

theorem favIcon_slash : ∀ c ∈ favIconFile.head?, isSlash c = true := by
  simp [favIconFile, isSlash]

/-- No host, with the name of the file behind it, begins with a scheme. -/
theorem not_https_favIconUrl {h : WStr} (hh : ∀ c ∈ h, isSlash c = false) :
    ¬ https <+: favIconUrl h := by
  rintro ⟨rest, hrest⟩
  have hall : ∀ c ∈ h, (!isSlash c) = true := fun c hc => by simp [hh c hc]
  have htake := congrArg (List.takeWhile fun c => !isSlash c) hrest
  rw [favIconUrl, List.takeWhile_append_of_pos hall] at htake
  have hleft : (https ++ rest).takeWhile (fun c => !isSlash c) = ['h', 't', 't', 'p', 's', ':'] := rfl
  have hright : favIconFile.takeWhile (fun c => !isSlash c) = [] := by decide
  rw [hleft, hright, List.append_nil] at htake
  have hpre : https <+: favIconUrl h := ⟨rest, hrest⟩
  rw [← htake] at hpre
  revert hpre
  decide

/-- The icon of an http page is found again, where its host leaves room for the name of the file in
    16 bits; the icon of an https page never is. -/
theorem foundAgain_iff (u : WStr) (hu : http <+: u ∨ https <+: u) :
    FoundAgain u ↔ http <+: u ∧ (host http u).length < 0x10000 - 18 := by
  have hfile : favIconFile.length = 12 := by decide
  rcases hu with hu | hu
  · have hslash := host_noSlash http u
    have hdomain := getDomainFromUrl_http hu
    have hpre : http <+: favIconUrl (getDomainFromUrl u true) := by
      rw [hdomain, favIconUrl, List.append_assoc]
      exact List.prefix_append _ _
    constructor
    · intro hfound
      refine ⟨hu, ?_⟩
      have hkey := hfound.key
      rw [getDomainFromUrl_http hpre, hdomain, favIconUrl, host_append hslash favIcon_slash rfl,
        List.append_cancel_left_eq, List.take_eq_self_iff, hfile] at hkey
      have hlt := length_host_lt http u
      omega
    · rintro ⟨-, hlen⟩
      refine ⟨fun _ => hpre, fun h => absurd hu (not_http_of_https h), ?_⟩
      rw [hdomain]
      exact getDomainFromUrl_append hslash favIcon_slash (by omega)
  · -- the domain of an https page has lost its scheme
    refine iff_of_false (fun hfound => ?_) fun h => not_http_of_https hu h.1
    have hpre := hfound.https hu
    rw [getDomainFromUrl_https hu] at hpre
    exact not_https_favIconUrl (host_noSlash https u) hpre

theorem foundAgain_plain :
    (http <+: http ++ ['a', '/', 'b'] ∨ https <+: http ++ ['a', '/', 'b']) ∧
      FoundAgain (http ++ ['a', '/', 'b']) :=
  ⟨by decide, (foundAgain_iff _ (by decide)).mpr (by decide)⟩

/-- The domain of https://a/b is a, and the icon of a/favicon.ico is filed under the empty text. -/
theorem not_foundAgain_https : ¬ FoundAgain (https ++ ['a', '/', 'b']) := by
  intro h
  have hkey := h.key
  revert hkey
  decide

/-! ### Asking again -/

theorem sent_eq {u url : WStr} {s : Center HICON}
    (hsent : (onService_GetFavoriteIcon p s u).1.requests = s.requests ++ [url]) :
    u ≠ [] ∧ url = strncpy (favIconUrl (getDomainFromUrl u true)) := by
  rw [onService_GetFavoriteIcon] at hsent
  split_ifs at hsent with hu
  · simp at hsent
  · refine ⟨hu, ?_⟩
    simp only at hsent
    split at hsent
    · simp at hsent
    · split at hsent
      · simp at hsent
      · exact (List.singleton_inj.mp (List.append_cancel_left hsent)).symm

/-- What is sent for an http page is, once it has come, what the page is shown with. -/
theorem onService_GetFavoriteIcon_again {u url : WStr} (hu : http <+: u) (hlen : u.length ≤ 259)
    {s : Center HICON} (hsent : (onService_GetFavoriteIcon p s u).1.requests = s.requests ++ [url]) :
    http <+: url ∧ ∀ (s' : Center HICON) (pIconData : List UInt8) (hIcon : HICON),
      p.createIconFromBuffer pIconData = some hIcon →
      (onService_GetFavoriteIcon p (onEvent_FavoriteIconArrive p s' url pIconData) u).2 = some hIcon := by
  obtain ⟨hne, rfl⟩ := sent_eq p hsent
  have hdomain := getDomainFromUrl_http hu
  have hhost := length_host_le u
  have hhttp : http.length = 7 := rfl
  have hurl : strncpy (favIconUrl (getDomainFromUrl u true)) =
      http ++ host http u ++ favIconFile.take (252 - (host http u).length) := by
    have hroom : (http ++ host http u).length ≤ 259 := by
      rw [List.length_append]
      omega
    rw [strncpy, favIconUrl, hdomain, List.take_append, List.take_of_length_le hroom,
      List.length_append, hhttp, ← Nat.sub_sub]
  have hkey : getDomainFromUrl (strncpy (favIconUrl (getDomainFromUrl u true))) true =
      getDomainFromUrl u true := by
    rw [hurl, hdomain]
    refine getDomainFromUrl_append (host_noSlash http u) (fun c hc => favIcon_slash c ?_) ?_
    · rw [List.head?_take] at hc
      split at hc
      · cases hc
      · exact hc
    · have hfile : (favIconFile.take (252 - (host http u).length)).length ≤ 12 :=
        (List.length_take_le' _ _).trans (by decide)
      omega
  refine ⟨?_, fun s' pIconData hIcon hicon => ?_⟩
  · rw [hurl, List.append_assoc]
    exact List.prefix_append _ _
  · rw [onService_GetFavoriteIcon, if_neg hne, onEvent_FavoriteIconArrive, hicon]
    simp only [hkey, lookup_setKey, if_true]

end UrlTraveler.DataCenter.Icons
