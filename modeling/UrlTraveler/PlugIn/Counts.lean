import UrlTraveler.PlugIn.Export

/-! Chrome and QQ: does the array that was counted hold what is exported?

    `GetFavoriteCount` counts every object below the `children` of the roots, whatever it is. The
    export needs a record for each URL, for each folder whose name it does not skip, and for a root
    whose name it does not skip:

        counted   objects below the roots   =  records below the roots + spare objects
        needed    records below the roots   +  roots with a record of their own

    Spare are objects of other types, objects inside other members, and folders that are skipped by
    name. The roots themselves are not counted; the sibling plug-in of 360 Extreme adds one for each.
    So a root with a name in another language pushes the last bookmark out of the array, unless
    there is a spare object. -/

namespace UrlTraveler.Export
open Json Chrome

variable (fam : Family)

/-! ### Spare objects -/

mutual
/-- The objects of a node among `children` that get no record, the node itself included. -/
def spareElem : Value → ℕ
  | .object members =>
    if field (.object members) Key.type = some Key.url then enumMembers members
    else if field (.object members) Key.type = some Key.folder then
      (if ∃ name ∈ field (.object members) Key.name, name ∈ fam.specialNames then 1 else 0) +
        spareMembers members
    else 1 + enumMembers members
  | .array elems => enumElems elems
  | _ => 0
termination_by structural value => value
/-- The objects in the members of a folder that get no record. -/
def spareMembers : List (List Char × Value) → ℕ
  | [] => 0
  | e :: members =>
    if e.1 = Key.children then spareMember e + enumMembers members
    else enumMember e + spareMembers members
termination_by structural members => members
def spareMember : List Char × Value → ℕ
  | (_, children_nodes) => spareChildren children_nodes
termination_by structural e => e
def spareChildren : Value → ℕ
  | .array elems => spareElems elems
  | .object members => 1 + enumMembers members
  | _ => 0
termination_by structural children_nodes => children_nodes
def spareElems : List Value → ℕ
  | [] => 0
  | x :: xs => spareElem x + spareElems xs
termination_by structural elems => elems
end

variable {fam}

/-- What a node among `children` is exported as. -/
def kindsElem (fam : Family) (x : Value) : List Bool :=
  if field x Key.type = some Key.url then [false] else kindsFolder fam x

mutual
theorem enumNode_elem : ∀ x : Value,
    enumNode x = (kindsElem fam x).length + spareElem fam x
  | .null => by simp [enumNode, kindsElem, kindsFolder, spareElem, field, member, asString, Key.url]
  | .bool b => by simp [enumNode, kindsElem, kindsFolder, spareElem, field, member]
  | .number t => by simp [enumNode, kindsElem, kindsFolder, spareElem, field, member]
  | .string s => by simp [enumNode, kindsElem, kindsFolder, spareElem, field, member]
  | .array elems => by simp [enumNode, kindsElem, kindsFolder, spareElem, field, member]
  | .object members => by
    have ih := enumMembers_split members
    rw [enumNode, kindsElem, kindsFolder, spareElem]
    by_cases hurl : field (.object members) Key.type = some Key.url
    · rw [if_pos hurl, if_pos hurl]
      rfl
    · rw [if_neg hurl, if_neg hurl]
      by_cases hfolder : field (.object members) Key.type = some Key.folder
      · rw [if_pos hfolder, if_pos hfolder, ih]
        split_ifs
        · omega
        · rw [List.length_cons]
          omega
      · rw [if_neg hfolder, if_neg hfolder, List.length_nil]
        omega
theorem enumMembers_split : ∀ members : List (List Char × Value),
    enumMembers members = (kindsMembers fam members).length + spareMembers fam members
  | [] => by simp [enumMembers, kindsMembers, spareMembers]
  | e :: members => by
    rw [enumMembers, kindsMembers, spareMembers]
    split
    · rw [enumMember_split e]
      omega
    · rw [enumMembers_split members]
      omega
theorem enumMember_split : ∀ e : List Char × Value,
    enumMember e = (kindsMember fam e).length + spareMember fam e
  | (_, x) => by rw [enumMember, kindsMember, spareMember, enumNode_children x]
theorem enumNode_children : ∀ x : Value,
    enumNode x = (kindsChildren fam x).length + spareChildren fam x
  | .null => by simp [enumNode, kindsChildren, spareChildren]
  | .bool b => by simp [enumNode, kindsChildren, spareChildren]
  | .number t => by simp [enumNode, kindsChildren, spareChildren]
  | .string s => by simp [enumNode, kindsChildren, spareChildren]
  | .array elems => by
    rw [enumNode, kindsChildren, spareChildren]
    exact enumElems_split elems
  | .object members => by simp [enumNode, kindsChildren, spareChildren]
theorem enumElems_split : ∀ elems : List Value,
    enumElems elems = (kindsElems fam elems).length + spareElems fam elems
  | [] => by simp [enumElems, kindsElems, spareElems]
  | x :: xs => by
    have hx := enumNode_elem x
    have hxs := enumElems_split xs
    rw [enumElems, kindsElems, spareElems, List.length_append, hx, hxs, kindsElem]
    omega
end

/-! ### Roots -/

/-- 1 for a root that gets a record of its own. -/
def ownRecord (fam : Family) (root : Value) : ℕ :=
  if field root Key.type = some Key.folder ∧
      ¬ ∃ name ∈ field root Key.name, name ∈ fam.specialNames then 1
  else 0

/-- The objects that are counted below a root and get no record. -/
def rootSpare (fam : Family) (root : Value) : ℕ :=
  if field root Key.type = some Key.folder then
    (member root Key.children).elim 0 (spareChildren fam)
  else (member root Key.children).elim 0 enumNode

theorem kindsMembers_eq (members : List (List Char × Value)) : kindsMembers fam members =
    kindsChildren fam ((members.lookup Key.children).getD .null) := by
  induction members with
  | nil => simp [kindsMembers, kindsChildren]
  | cons e members ih =>
    rw [kindsMembers, List.lookup_cons]
    by_cases h : e.1 = Key.children
    · rw [if_pos h, h, beq_self_eq_true]
      obtain ⟨key, v⟩ := e
      rw [kindsMember]
      rfl
    · have hb : (Key.children == e.1) = false := beq_eq_false_iff_ne.mpr (Ne.symm h)
      rw [if_neg h, hb, ih]

/-- ROOT: what a root needs against what is counted below it. -/
theorem root_balance {root children : Value} (h : member root Key.children = some children) :
    (kindsFolder fam root).length + rootSpare fam root = ownRecord fam root + enumNode children := by
  cases root with
  | object members =>
    obtain rfl : (members.lookup Key.children).getD .null = children := Option.some.inj h
    have hsplit : enumNode ((members.lookup Key.children).getD .null) =
      (kindsMembers fam members).length +
        spareChildren fam ((members.lookup Key.children).getD .null) := by
      rw [kindsMembers_eq]
      exact enumNode_children _
    rw [kindsFolder, rootSpare, ownRecord, h]
    simp only [Option.elim_some]
    by_cases hfolder : field (.object members) Key.type = some Key.folder
    · simp only [hfolder, if_true, true_and]
      by_cases hspecial : ∃ name ∈ field (.object members) Key.name, name ∈ fam.specialNames
      · rw [if_pos hspecial, if_neg (not_not.mpr hspecial)]
        omega
      · rw [if_neg hspecial, if_pos hspecial, List.length_cons]
        omega
    · simp only [hfolder, if_false, false_and, List.length_nil]
  | null =>
    obtain rfl : Value.null = children := Option.some.inj h
    simp [kindsFolder, rootSpare, ownRecord, field, member, asString, Key.folder, enumNode]
  | _ => cases h

/-! ### The file -/

/-- `GetFavoriteCount` of the family: the objects below the `children` of its roots. -/
def countRoots (roots : Value) : ℕ → List (List Char) → Option ℕ
  | n, [] => some n
  | n, key :: keys => ((member roots key).bind (member · Key.children)).bind fun children =>
    countRoots roots (n + enumNode children) keys

def countFile (fam : Family) (chrome_bookmarks : Value) : Option ℕ :=
  (member chrome_bookmarks Key.roots).bind fun roots => countRoots roots 0 fam.roots

/-- What `f` gives for the roots of a file, added up. -/
def sumRoots (fam : Family) (f : Value → ℕ) (chrome_bookmarks : Value) : ℕ :=
  (member chrome_bookmarks Key.roots).elim 0 fun roots =>
    (fam.roots.map fun key => (member roots key).elim 0 f).sum

theorem countFile_chrome (v : Value) : countFile chromeFamily v = Chrome.getFavoriteCount v := by
  simp only [countFile, countRoots, chromeFamily, allRoots, Chrome.getFavoriteCount,
    Option.bind_eq_bind, Nat.zero_add, Option.pure_def]

theorem countFile_qq (v : Value) : countFile qqFamily v = enumRoot v Key.bookmarkBar := by
  simp only [countFile, countRoots, qqFamily, enumRoot, Option.bind_eq_bind, Nat.zero_add,
    Option.pure_def, Option.bind_assoc]

theorem countRoots_balance (roots : Value) : ∀ (keys : List (List Char)) (c n : ℕ),
    countRoots roots c keys = some n →
    (keys.flatMap fun key => (member roots key).elim [] (kindsFolder fam)).length +
        (keys.map fun key => (member roots key).elim 0 (rootSpare fam)).sum + c =
      (keys.map fun key => (member roots key).elim 0 (ownRecord fam)).sum + n := by
  intro keys
  induction keys with
  | nil =>
    intro c n h
    cases h
    simp
  | cons key keys ih =>
    intro c n h
    rw [countRoots] at h
    obtain ⟨children, hc, h⟩ := Option.bind_eq_some_iff.mp h
    obtain ⟨root, hroot, hc⟩ := Option.bind_eq_some_iff.mp hc
    have hbal := @root_balance fam root children hc
    have hrest := ih _ n h
    simp only [List.flatMap_cons, List.map_cons, List.sum_cons, List.length_append, hroot,
      Option.elim_some]
    omega

/-- An empty document has no roots. -/
theorem kindsFile_eq (v : Value) : kindsFile fam v =
    (member v Key.roots).elim [] fun roots =>
      fam.roots.flatMap fun key => (member roots key).elim [] (kindsFolder fam) := by
  rw [kindsFile]
  split
  next h =>
    have hnull : (fam.roots.flatMap fun key =>
        (member .null key).elim [] (kindsFolder fam)) = [] := by
      rw [List.flatMap_eq_nil_iff]
      intro key _
      simp [member, kindsFolder]
    rcases v with _ | _ | _ | _ | elems | members
    · rw [member, Option.elim_some, hnull]
    · rfl
    · rfl
    · rfl
    · rfl
    · rw [List.isEmpty_iff.mp h, member, List.lookup_nil, Option.getD_none, Option.elim_some, hnull]
  next => rfl

/-- BALANCE: records needed and spare objects against own records of roots and objects counted. -/
theorem file_balance {v : Value} {n : ℕ} (h : countFile fam v = some n) :
    (kindsFile fam v).length + sumRoots fam (rootSpare fam) v =
      sumRoots fam (ownRecord fam) v + n := by
  obtain ⟨roots, hroots, h⟩ := Option.bind_eq_some_iff.mp h
  rw [kindsFile_eq, sumRoots, sumRoots, hroots]
  exact countRoots_balance roots fam.roots 0 n h

/-- Every folder and URL the export meets got the record of its place in the preorder. -/
def AllWritten (fam : Family) (v : Value) (st : ExportState) : Prop :=
  ∃ rs, rs <+: st.ppData ∧ rs.length = st.nRealDataNum ∧ rs.map (·.bFolder) = kindsFile fam v

theorem Filled.allWritten_iff {n : ℕ} {v : Value} {rs : List FavoriteLineData} {st : ExportState}
    (h : Filled fam n (kindsFile fam v) rs st) :
    AllWritten fam v st ↔ (kindsFile fam v).length ≤ n := by
  have hlen := congrArg List.length h.kinds
  rw [List.length_map, List.length_take] at hlen
  constructor
  · rintro ⟨rs', -, hnum, hk⟩
    have hk := congrArg List.length hk
    rw [List.length_map, hnum, h.num] at hk
    omega
  · intro hle
    refine ⟨rs, ?_, h.num.symm, by rw [h.kinds, List.take_of_length_le hle]⟩
    rw [h.data]
    exact List.prefix_append _ _

/-- ROOM: for Chrome and for QQ, on every document that can be counted and exported, an array of
    `GetFavoriteCount` records holds everything that is exported exactly when there are at least as
    many spare objects below the roots as roots with a record of their own. -/
theorem getFavoriteCount_room_iff (crc : WStr → ℕ) (fam : Family) (v : Value) (n : ℕ)
    (st : ExportState)
    (hcount : fam = chromeFamily ∧ getFavoriteCount (.chrome (some v)) = some n ∨
      fam = qqFamily ∧ getFavoriteCount (.qq (some v)) = some n)
    (hrun : exportFile fam crc v (List.replicate n fresh) = some st) :
    AllWritten fam v st ↔ sumRoots fam (ownRecord fam) v ≤ sumRoots fam (rootSpare fam) v := by
  have hfile : countFile fam v = some n := by
    rcases hcount with ⟨rfl, h⟩ | ⟨rfl, h⟩
    · rw [countFile_chrome]
      exact h
    · rw [countFile_qq]
      exact h
  obtain ⟨rs, hfilled⟩ := exportFile_fills hrun
  have hbal := file_balance hfile
  rw [hfilled.allWritten_iff]
  omega

/-- A file with one bookmark on a bar of the given name. -/
def oneOnBar (name : List Char) : Value :=
  .object [(Key.roots, .object [(Key.bookmarkBar, .object
    [(Key.children, .array [.object
      [(Key.name, .string ['a']), (Key.type, .string Key.url), (Key.url, .string ['u'])]]),
     (Key.name, .string name), (Key.type, .string Key.folder)])])]

theorem getFavoriteCount_room_bar : ∃ st,
    getFavoriteCount (.chrome (some (oneOnBar Key.bookmarksBar))) = some 1 ∧
    exportFile chromeFamily (fun _ => 0) (oneOnBar Key.bookmarksBar) [fresh] = some st ∧
    AllWritten chromeFamily (oneOnBar Key.bookmarksBar) st := by
  have hcount : getFavoriteCount (.chrome (some (oneOnBar Key.bookmarksBar))) = some 1 := by
    decide +kernel
  have hruns : (exportFile chromeFamily (fun _ => 0) (oneOnBar Key.bookmarksBar) [fresh]).isSome := by
    decide +kernel
  obtain ⟨st, hst⟩ := Option.isSome_iff_exists.mp hruns
  refine ⟨st, hcount, hst, ?_⟩
  refine (getFavoriteCount_room_iff _ _ _ 1 st (.inl ⟨rfl, hcount⟩) hst).mpr ?_
  decide +kernel

/-- A bar of another name takes the only record, and the bookmark is left out. -/
theorem getFavoriteCount_no_room : ∃ st,
    getFavoriteCount (.chrome (some (oneOnBar ['B']))) = some 1 ∧
    exportFile chromeFamily (fun _ => 0) (oneOnBar ['B']) [fresh] = some st ∧
    st.ppData.map (·.szTitle) = [['B']] ∧ kindsFile chromeFamily (oneOnBar ['B']) = [true, false] ∧
    ¬ AllWritten chromeFamily (oneOnBar ['B']) st := by
  have hruns : (exportFile chromeFamily (fun _ => 0) (oneOnBar ['B']) [fresh]).map
      (fun st => (st.ppData.map (·.szTitle), st.nRealDataNum)) = some ([['B']], 1) := by
    decide +kernel
  have hkinds : kindsFile chromeFamily (oneOnBar ['B']) = [true, false] := by decide +kernel
  obtain ⟨st, hst, hout⟩ := Option.map_eq_some_iff.mp hruns
  obtain ⟨htitles, hnum⟩ := Prod.mk.inj hout
  refine ⟨st, by decide +kernel, hst, htitles, hkinds, ?_⟩
  rintro ⟨rs, -, hlen, hk⟩
  have hk := congrArg List.length hk
  rw [List.length_map, hlen, hnum, hkinds] at hk
  cases hk

end UrlTraveler.Export
