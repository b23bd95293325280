import UrlTraveler.Chrome.Build

/-! Depth-first order and depths.

    For records with distinct nonzero ids, `SortByDepth` writes the walk of the list from id 0, and
    the depth loop finds every live record of a tree at the length of its parent's path:

        walk v        the records in depth-first order
        depthOf v r   how many folders are above r
        entries v     (depth, index) of the live records, in that order -/

namespace UrlTraveler.Chrome
open Forest Walk Cycles Maps

def links : Links FavoriteLineData ℤ := ⟨(·.nId), (·.nPid), (·.bFolder)⟩

abbrev folders (v : List FavoriteLineData) : Table ℕ ℤ ℤ := rows links v

/-- The records in depth-first order. -/
def walk (v : List FavoriteLineData) : List FavoriteLineData := preorder links v (v.length + 1) 0

/-! ### `SortByDepth` is the walk -/

theorem sortLoop_eq {v : List FavoriteLineData} {fuel : ℕ} {p : ℤ}
    {call : List FavoriteLineData → ℤ → Option (List FavoriteLineData)} : ∀ (l out : List _),
    (∀ r ∈ l, r.nPid = p → r.bFolder = true → ∀ out,
      out.length + (preorder links v fuel r.nId).length ≤ v.length →
      call out r.nId = some (out ++ preorder links v fuel r.nId)) →
    out.length + (l.flatMap (below links v fuel p)).length ≤ v.length →
    sortLoop call v.length p l out = some (out ++ l.flatMap (below links v fuel p))
  | [], out, _, _ => by simp [sortLoop]
  | r :: rest, out, hcall, hlen => by
    have hcall' : ∀ s ∈ rest, s.nPid = p → s.bFolder = true → ∀ out,
        out.length + (preorder links v fuel s.nId).length ≤ v.length →
        call out s.nId = some (out ++ preorder links v fuel s.nId) :=
      fun s hs => hcall s (List.mem_cons_of_mem _ hs)
    rw [List.flatMap_cons] at hlen ⊢
    rw [sortLoop]
    split
    case isFalse hp =>
      have hnil : below links v fuel p r = [] := if_neg hp
      rw [hnil, List.nil_append] at hlen ⊢
      exact sortLoop_eq rest out hcall' hlen
    case isTrue hp =>
      have hb : below links v fuel p r =
          r :: (if r.bFolder then preorder links v fuel r.nId else []) := if_pos hp
      rw [hb] at hlen ⊢
      simp only [List.length_append, List.length_cons] at hlen
      rw [if_neg (by omega)]
      split
      case isTrue hfull =>
        -- the array is full, so nothing is left to write
        simp only [List.length_append, List.length_singleton] at hfull
        have h1 : (if r.bFolder then preorder links v fuel r.nId else []) = [] :=
          List.length_eq_zero_iff.mp (by omega)
        have h2 : rest.flatMap (below links v fuel p) = [] :=
          List.length_eq_zero_iff.mp (by omega)
        rw [h1, h2]
        simp
      case isFalse hfull =>
        split
        case isTrue hf =>
          rw [if_pos hf] at hlen
          have hroom : (out ++ [r]).length + (preorder links v fuel r.nId).length ≤ v.length := by
            simp only [List.length_append, List.length_singleton]
            omega
          rw [hcall r List.mem_cons_self hp hf _ hroom, Option.bind_some,
            sortLoop_eq rest _ hcall' (by simp only [List.length_append, List.length_singleton]; omega)]
          simp
        case isFalse hf =>
          rw [if_neg hf] at hlen
          rw [sortLoop_eq rest _ hcall'
            (by simp only [List.length_append, List.length_singleton, List.length_nil] at hlen ⊢; omega)]
          simp

theorem sortNode_eq {v : List FavoriteLineData} (hv : Distinct links v) : ∀ (fuel : ℕ) (p : ℤ)
    (π : List ℤ) (out : List FavoriteLineData), PathOf (folders v) p π →
    v.length < fuel + π.length → out.length + (preorder links v fuel p).length ≤ v.length →
    sortNode v fuel out p = some (out ++ preorder links v fuel p)
  | 0, p, π, out, hp, hfuel, _ => by
    have := path_length_le hv hp
    omega
  | fuel + 1, p, π, out, hp, hfuel, hlen => by
    rw [sortNode, preorder_succ]
    refine sortLoop_eq v out (fun r hr hrp hf out hlen => ?_) hlen
    have hpar : PathOf (folders v) (links.par r) π := by
      rw [← hrp] at hp
      exact hp
    exact sortNode_eq hv fuel r.nId (r.nId :: π) out (path_up hr hf hpar)
      (by simp only [List.length_cons]; omega) hlen

/-- `SortByDepth` writes the walk and leaves the rest of the array null. -/
theorem sortByDepth_eq {v : List FavoriteLineData} (hv : Distinct links v) : sortByDepth v =
    some ((walk v).map some ++ List.replicate (v.length - (walk v).length) none) := by
  have hroot : PathOf (folders v) 0 [] := .root
  have hlen := preorder_length_le hv (v.length + 1) hroot
  rw [sortByDepth, sortNode_eq hv (v.length + 1) 0 [] [] hroot (by simp) (by simpa using hlen)]
  rfl

/-- `QQPlugIn::SortByDepth`, which is the same text. -/
def qqSortByDepth (v : List FavoriteLineData) : Option PPData := sortByDepth v

/-- DEPTH-FIRST ORDER: with distinct nonzero ids, cycles and dangling parents included, the array is
    left with the listing of what can be reached from parent 0, and nulls. -/
theorem sortByDepth_lists (v : List FavoriteLineData) (hnd : (v.map (·.nId)).Nodup)
    (h0 : ∀ r ∈ v, r.nId ≠ 0) :
    ∃ l : List FavoriteLineData, l.length ≤ v.length ∧
      sortByDepth v = some (l.map some ++ List.replicate (v.length - l.length) none) ∧
      qqSortByDepth v = some (l.map some ++ List.replicate (v.length - l.length) none) ∧
      Lists links v 0 l ∧ l.Nodup ∧ ∀ r, r ∈ l ↔ Reached links v 0 r := by
  have hv : Distinct links v := ⟨hnd, h0⟩
  have hlists : Lists links v 0 (walk v) := preorder_lists hv .root (by simp)
  exact ⟨walk v, preorder_length_le hv _ .root, sortByDepth_eq hv, sortByDepth_eq hv, hlists,
    preorder_nodup hv .root, hlists.mem_iff⟩

/-- A folder behind its bookmark, a folder that is its own parent, and a bookmark in that folder. -/
def oneReached : List FavoriteLineData :=
  [{ nId := 7, nPid := 4, szTitle := ['a'] }, { nId := 4, bFolder := true },
   { nId := 5, nPid := 5, bFolder := true }, { nId := 6, nPid := 5, szTitle := ['b'] }]

theorem sortByDepth_lists_oneReached : ∃ l : List FavoriteLineData,
    sortByDepth oneReached = some (l.map some ++ List.replicate (4 - l.length) none) ∧
    (sortByDepth oneReached).map (·.map (Option.map (·.nId))) =
      some [some 4, some 7, none, none] ∧
    Lists links oneReached 0 l ∧ l.Nodup ∧ ∀ r, r ∈ l ↔ Reached links oneReached 0 r := by
  obtain ⟨l, _, hsort, _, h⟩ := sortByDepth_lists oneReached (by decide) (by decide)
  exact ⟨l, hsort, by decide, h⟩

/-! ### The depth loop -/

/-- The depth of a record, read off the depths of the folders. -/
def depthIn (m : List (ℤ × ℤ)) (r : FavoriteLineData) : ℤ :=
  match m.lookup r.nPid with
  | some d => d + 1
  | none => 0

/-- Records with their positions, in an order in which no record comes after its child. -/
structure Ordered (E : List (FavoriteLineData × ℕ)) : Prop where
  nodup : (E.map (·.1.nId)).Nodup
  self : ∀ e ∈ E, e.1.nId ≠ e.1.nPid
  before : E.Pairwise fun e f => f.1.nId ≠ e.1.nPid

theorem Ordered.tail {e : FavoriteLineData × ℕ} {E : List (FavoriteLineData × ℕ)}
    (h : Ordered (e :: E)) : Ordered E :=
  ⟨(List.nodup_cons.mp h.nodup).2, fun f hf => h.self f (List.mem_cons_of_mem _ hf),
    (List.pairwise_cons.mp h.before).2⟩

variable {ν : Type}

/-- The depth loop over the live records. -/
def depthRun (E : List (FavoriteLineData × ℕ)) (s : Members ν) : Members ν :=
  E.foldl (fun s e => depthStep s e.2 e.1) s

theorem depthStep_maxDepth (s : Members ν) (i : ℕ) (r : FavoriteLineData) :
    (depthStep s i r).m_nMaxDepth = max s.m_nMaxDepth (depthIn s.m_mapPidInfo r) := by
  change (if s.m_nMaxDepth < depthIn s.m_mapPidInfo r then _ else _) = _
  split
  next h => exact (max_eq_right h.le).symm
  next h => exact (max_eq_left (not_lt.mp h)).symm

theorem depthStep_lookup (s : Members ν) (i : ℕ) (r : FavoriteLineData) (x : ℤ) :
    (depthStep s i r).m_mapPidInfo.lookup x = (s.m_mapPidInfo.lookup x).or
      (if r.bFolder = true ∧ x = r.nId then some (depthIn s.m_mapPidInfo r) else none) := by
  change (if r.bFolder then insertNew s.m_mapPidInfo r.nId (depthIn s.m_mapPidInfo r)
    else s.m_mapPidInfo).lookup x = _
  split
  next hf => rw [lookup_insertNew]; simp [hf]
  next hf => simp [hf]

/-- Ids that no folder of the run has keep their depth. -/
theorem depthRun_other : ∀ (E : List (FavoriteLineData × ℕ)) (s : Members ν) (x : ℤ),
    (∀ e ∈ E, e.1.bFolder = true → e.1.nId ≠ x) →
    (depthRun E s).m_mapPidInfo.lookup x = s.m_mapPidInfo.lookup x
  | [], _, _, _ => rfl
  | e :: E, s, x, h => by
    rw [depthRun, List.foldl_cons, ← depthRun, depthRun_other E _ x
      fun f hf => h f (List.mem_cons_of_mem _ hf), depthStep_lookup, if_neg, Option.or_none]
    rintro ⟨hf, rfl⟩
    exact h e List.mem_cons_self hf rfl

/-- What the depth loop leaves: with the depths of the folders in `m_mapPidInfo`, every record is
    filed under its depth. -/
theorem depthRun_spec : ∀ (E : List (FavoriteLineData × ℕ)) (s : Members ν), Ordered E →
    (∀ e ∈ E, s.m_mapPidInfo.lookup e.1.nId = none) →
    (∀ x d, s.m_mapPidInfo.lookup x = some d → 0 ≤ d) →
    (depthRun E s).m_mapDepthInfo = s.m_mapDepthInfo ++
      E.map (fun e => (depthIn (depthRun E s).m_mapPidInfo e.1, e.2)) ∧
    (∀ e ∈ E, e.1.bFolder = true → (depthRun E s).m_mapPidInfo.lookup e.1.nId =
      some (depthIn (depthRun E s).m_mapPidInfo e.1)) ∧
    (∀ e ∈ E, 0 ≤ depthIn (depthRun E s).m_mapPidInfo e.1 ∧
      depthIn (depthRun E s).m_mapPidInfo e.1 ≤ (depthRun E s).m_nMaxDepth) ∧
    s.m_nMaxDepth ≤ (depthRun E s).m_nMaxDepth
  | [], s, _, _, _ => by simp [depthRun]
  | e :: E, s, hE, hnew, hpos => by
    have hstep : depthRun (e :: E) s = depthRun E (depthStep s e.2 e.1) := rfl
    have hids := List.nodup_cons.mp hE.nodup
    have hlater := List.pairwise_cons.mp hE.before
    -- the depth of `e` does not change any more
    have hkeep : depthIn (depthRun (e :: E) s).m_mapPidInfo e.1 = depthIn s.m_mapPidInfo e.1 := by
      rw [depthIn, depthRun_other (e :: E) s e.1.nPid, ← depthIn]
      intro f hf _
      rcases List.mem_cons.mp hf with rfl | hf
      · exact hE.self _ List.mem_cons_self
      · exact hlater.1 f hf
    have hd : 0 ≤ depthIn s.m_mapPidInfo e.1 := by
      rw [depthIn]
      split
      next d h => have := hpos _ d h; omega
      next => exact le_rfl
    obtain ⟨h₁, h₂, h₃, h₄⟩ := depthRun_spec E (depthStep s e.2 e.1) hE.tail
      (fun f hf => by
        have hne : f.1.nId ≠ e.1.nId := fun he => hids.1 (List.mem_map.mpr ⟨f, hf, he⟩)
        rw [depthStep_lookup, hnew f (List.mem_cons_of_mem _ hf)]
        simp [hne])
      (fun x d h => by
        rw [depthStep_lookup] at h
        rcases Option.or_eq_some_iff.mp h with h | ⟨_, h⟩
        · exact hpos x d h
        · split at h
          · cases h; exact hd
          · cases h)
    rw [← hstep] at h₁ h₂ h₃ h₄
    rw [depthStep_maxDepth] at h₄
    refine ⟨?_, ?_, ?_, (le_max_left _ _).trans h₄⟩
    · rw [h₁, List.map_cons, hkeep]
      change (s.m_mapDepthInfo ++ [(depthIn s.m_mapPidInfo e.1, e.2)]) ++ _ = _
      rw [List.append_assoc, List.singleton_append]
    · intro f hf hfold
      rcases List.mem_cons.mp hf with rfl | hf
      · have hother : ∀ g ∈ E, g.1.bFolder = true → g.1.nId ≠ f.1.nId :=
          fun g hg _ he => hids.1 (List.mem_map.mpr ⟨g, hg, he⟩)
        rw [hkeep, hstep, depthRun_other E _ _ hother, depthStep_lookup, hnew f List.mem_cons_self]
        simp [hfold]
      · exact h₂ f hf hfold
    · intro f hf
      rcases List.mem_cons.mp hf with rfl | hf
      · rw [hkeep]
        exact ⟨hd, (le_max_right _ _).trans h₄⟩
      · exact h₃ f hf

theorem depthRun_frame (E : List (FavoriteLineData × ℕ)) (s : Members ν) :
    (depthRun E s).m_mapPidNodeInfo = s.m_mapPidNodeInfo ∧
    (depthRun E s).m_mapIdIndexInfo = s.m_mapIdIndexInfo ∧ (depthRun E s).m_nIndex = s.m_nIndex := by
  induction E generalizing s with
  | nil => exact ⟨rfl, rfl, rfl⟩
  | cons e E ih => exact ih (depthStep s e.2 e.1)

/-- The depths depend on nothing but the depths the loop starts with. -/
theorem depthRun_pids {ν' : Type} (E : List (FavoriteLineData × ℕ)) {s : Members ν} {t : Members ν'}
    (h : s.m_mapPidInfo = t.m_mapPidInfo) :
    (depthRun E s).m_mapPidInfo = (depthRun E t).m_mapPidInfo := by
  induction E generalizing s t with
  | nil => exact h
  | cons e E ih =>
    refine ih (s := depthStep s e.2 e.1) (t := depthStep t e.2 e.1) ?_
    simp only [depthStep, h]

/-! ### The sorted array and its live records -/

/-- What `SortByDepth` leaves in the array. -/
def sortedData (v : List FavoriteLineData) : PPData :=
  (walk v).map some ++ List.replicate (v.length - (walk v).length) none

/-- The live records that were reached, with their positions. -/
def liveAt (v : List FavoriteLineData) : List (FavoriteLineData × ℕ) :=
  (walk v).zipIdx.filter fun e => !e.1.bDelete

theorem liveAt_map_fst (v : List FavoriteLineData) :
    (liveAt v).map (·.1) = (walk v).filter fun r => !r.bDelete := by
  have h := List.filter_map (f := Prod.fst) (p := fun r : FavoriteLineData => !r.bDelete)
    (l := (walk v).zipIdx)
  rw [List.zipIdx_map_fst] at h
  exact h.symm

theorem mem_liveAt {v : List FavoriteLineData} {e : FavoriteLineData × ℕ} (he : e ∈ liveAt v) :
    e.1 ∈ walk v ∧ e.1.bDelete = false ∧ recAt (sortedData v) e.2 = some e.1 := by
  obtain ⟨hmem, hlive⟩ := List.mem_filter.mp he
  have hat : (walk v)[e.2]? = some e.1 := List.mk_mem_zipIdx_iff_getElem?.mp hmem
  refine ⟨List.mem_of_getElem? hat, by simpa using hlive, ?_⟩
  have hlt : e.2 < (walk v).length := (List.getElem?_eq_some_iff.mp hat).1
  rw [recAt, sortedData, List.getElem?_append_left (by simpa using hlt), List.getElem?_map, hat]
  rfl

theorem depthLoop_eq (v : List FavoriteLineData) (s : Members ν) :
    depthLoop (sortedData v) s = depthRun (liveAt v) s := by
  have hnull : ∀ (n k : ℕ) (s : Members ν),
      ((List.replicate n (none : Option FavoriteLineData)).zipIdx k).foldl depthEntry s = s := by
    intro n
    induction n with
    | zero => intros; rfl
    | succ n ih => intro k s; exact ih (k + 1) s
  have hlive : ∀ (l : List FavoriteLineData) (k : ℕ) (s : Members ν),
      ((l.map some).zipIdx k).foldl depthEntry s =
        depthRun ((l.zipIdx k).filter fun e => !e.1.bDelete) s := by
    intro l
    induction l with
    | nil => intros; rfl
    | cons r l ih =>
      intro k s
      rw [List.map_cons, List.zipIdx_cons, List.foldl_cons, ih, List.zipIdx_cons, List.filter_cons]
      cases hd : r.bDelete <;> simp [hd, depthRun, depthEntry]
  rw [depthLoop, sortedData, List.zipIdx_append, List.foldl_append, hnull, hlive]
  rfl

variable {v : List FavoriteLineData}

theorem mem_walk {r : FavoriteLineData} (hr : r ∈ walk v) :
    r ∈ v ∧ ∃ q, PathOf (folders v) r.nPid q := by
  obtain ⟨hrv, q, hq, _⟩ := mem_preorder (L := links) .root hr
  exact ⟨hrv, q, hq⟩

theorem liveAt_ordered (hv : Distinct links v) : Ordered (liveAt v) := by
  have hsub : ((liveAt v).map (·.1)).Sublist (walk v) := by
    rw [liveAt_map_fst]
    exact List.filter_sublist
  have hnd : (walk v).Nodup := preorder_nodup hv .root
  refine ⟨?_, fun e he hself => ?_, ?_⟩
  · have : (liveAt v).map (·.1.nId) = ((liveAt v).map (·.1)).map (·.nId) := by simp
    rw [this]
    refine (hnd.sublist hsub).map_on fun r hr s hs he => ?_
    exact hv.inj (mem_walk (hsub.subset hr)).1 (mem_walk (hsub.subset hs)).1 he
  · -- a record on its own path
    obtain ⟨hev, q, hq⟩ := mem_walk (mem_liveAt he).1
    obtain ⟨q', rfl, hq'⟩ := path_key hv hev (hself ▸ hq : PathOf (folders v) e.1.nId q)
    exact absurd (congrArg List.length (hq.unique hv.keyed hq')) (by simp)
  · have hp := (preorder_pairwise hv (v.length + 1) .root).sublist hsub
    exact List.pairwise_map.mp hp

/-- Positions and depths as `TraverseNode` needs them: a record is one below its folder, and below
    the top level every record has one. -/
structure Plan (ppData : PPData) (E : List (FavoriteLineData × ℕ)) (dep : FavoriteLineData → ℕ) :
    Prop where
  slot : ∀ e ∈ E, recAt ppData e.2 = some e.1
  nodup : (E.map (·.1.nId)).Nodup
  up : ∀ e ∈ E, ∀ f ∈ E, f.1.bFolder = true → f.1.nId = e.1.nPid → dep e.1 = dep f.1 + 1
  top : ∀ e ∈ E, 0 < dep e.1 → ∃ f ∈ E, f.1.bFolder = true ∧ f.1.nId = e.1.nPid

/-- How many live folders are above a record, up to the root or to the first that is not live. -/
def depthOf (v : List FavoriteLineData) (r : FavoriteLineData) : ℕ :=
  (depthIn (depthRun (liveAt v) ({} : Members Unit)).m_mapPidInfo r).toNat

/-- Sorting and the depth loop make a plan of the live records. -/
theorem depthLoop_plan (hv : Distinct links v) (nMaxDepth : ℤ) (nIndex : ℕ) :
    Plan (sortedData v) (liveAt v) (depthOf v) ∧
      ∃ s : Members ν, depthLoop (sortedData v) { m_nMaxDepth := nMaxDepth, m_nIndex := nIndex } = s ∧
        s.m_mapDepthInfo = (liveAt v).map (fun e => ((depthOf v e.1 : ℤ), e.2)) ∧
        (∀ e ∈ liveAt v, (depthOf v e.1 : ℤ) ≤ s.m_nMaxDepth) ∧
        s.m_mapPidNodeInfo = [] ∧ s.m_mapIdIndexInfo = [] ∧ s.m_nIndex = nIndex := by
  have hord := liveAt_ordered hv
  obtain ⟨h₁, h₂, h₃, _⟩ := depthRun_spec (ν := ν) (liveAt v)
    { m_nMaxDepth := nMaxDepth, m_nIndex := nIndex } hord (fun _ _ => rfl) (by simp)
  have hframe := depthRun_frame (liveAt v) ({ m_nMaxDepth := nMaxDepth, m_nIndex := nIndex } : Members ν)
  have hother := depthRun_other (liveAt v)
    ({ m_nMaxDepth := nMaxDepth, m_nIndex := nIndex } : Members ν)
  have hpids : ∀ r, depthOf v r = (depthIn (depthRun (liveAt v)
      ({ m_nMaxDepth := nMaxDepth, m_nIndex := nIndex } : Members ν)).m_mapPidInfo r).toNat :=
    fun r => congrArg (fun m => (depthIn m r).toNat) (depthRun_pids (liveAt v) rfl)
  rw [← depthLoop_eq] at h₁ h₂ h₃ hframe hother hpids
  generalize depthLoop (sortedData v) { m_nMaxDepth := nMaxDepth, m_nIndex := nIndex } = s at *
  -- depths are not negative
  have hcast : ∀ e ∈ liveAt v, (depthOf v e.1 : ℤ) = depthIn s.m_mapPidInfo e.1 :=
    fun e he => by rw [hpids, Int.toNat_of_nonneg (h₃ e he).1]
  refine ⟨⟨fun e he => (mem_liveAt he).2.2, hord.nodup, ?_, ?_⟩, s, rfl, ?_, ?_, hframe⟩
  · intro e he f hf hfold heq
    have hl := h₂ f hf hfold
    rw [heq] at hl
    have he' : depthIn s.m_mapPidInfo e.1 = depthIn s.m_mapPidInfo f.1 + 1 := by
      rw [depthIn, hl]
    have h₁ := hcast e he
    have h₂ := hcast f hf
    omega
  · intro e he hpos
    by_contra hno
    have hnone := hother e.1.nPid fun f hf hfold heq => hno ⟨f, hf, hfold, heq⟩
    have : depthIn s.m_mapPidInfo e.1 = 0 := by rw [depthIn, hnone]; rfl
    simp [hpids, this] at hpos
  · rw [h₁, List.nil_append]
    exact List.map_congr_left fun e he => by rw [hcast e he]
  · intro e he
    rw [hcast e he]
    exact (h₃ e he).2

/-- The live folders above a record are on its path. -/
theorem Plan.dep_le (hv : Distinct links v) {dep : FavoriteLineData → ℕ}
    (hP : Plan (sortedData v) (liveAt v) dep) {p : ℤ} {q : List ℤ} (hq : PathOf (folders v) p q) :
    ∀ e ∈ liveAt v, e.1.nPid = p → dep e.1 ≤ q.length := by
  induction hq with
  | root =>
    intro e he hp
    by_contra hne
    obtain ⟨f, hf, _, hid⟩ := hP.top e he (by simpa [Nat.pos_iff_ne_zero] using hne)
    exact hv.nonzero f.1 (mem_walk (mem_liveAt hf).1).1 (hid.trans hp)
  | @up i row q hrow hq ih =>
    intro e he hp
    obtain ⟨f, hf, _, rfl⟩ := rows_inv hrow
    rcases Nat.eq_zero_or_pos (dep e.1) with h0 | hpos
    · rw [h0]
      exact Nat.zero_le _
    · obtain ⟨g, hg, hgfold, hid⟩ := hP.top e he hpos
      have hgf : g.1 = f :=
        hv.inj (mem_walk (mem_liveAt hg).1).1 (List.mem_of_getElem? hf) (hid.trans hp)
      rw [hP.up e he g hg hgfold hid, List.length_cons]
      exact Nat.succ_le_succ (ih g hg (congrArg (·.nPid) hgf))

theorem Plan.dep_lt (hv : Distinct links v) {dep : FavoriteLineData → ℕ}
    (hP : Plan (sortedData v) (liveAt v) dep) : ∀ e ∈ liveAt v, dep e.1 < v.length + 1 := by
  intro e he
  obtain ⟨_, q, hq⟩ := mem_walk (mem_liveAt he).1
  exact Nat.lt_succ_of_le ((hP.dep_le hv hq e he rfl).trans (path_length_le hv hq))

end UrlTraveler.Chrome
