import UrlTraveler.Chrome.Depth

/-! `TraverseNode` builds the trees of a plan.

    `m_mapPidNodeInfo` after the levels from `n` on holds one array for every parent id of level
    `n`, and the array is the forest below that id. One level down, every key is the id of a folder
    of the level: the folder takes the array and the key is gone.

        level n + 1     pids of level n + 1   ↦  forests below them
        attach          none of these keys is left
        level n         pids of level n       ↦  forests below them

    Ids are given out level by level, the deepest level first (`order`). -/

namespace UrlTraveler.Chrome
open Maps

/-- A node of the tree: its record, its id and its children. -/
inductive Node where
  | node (data : FavoriteLineData) (id : ℕ) (children : List Node)

/-- The records below `p`, as trees. -/
def trees (R : List FavoriteLineData) (idx : ℤ → ℕ) : ℕ → ℤ → List Node
  | 0, _ => []
  | k + 1, p => (R.filter (·.nPid = p)).map fun r =>
    .node r (idx r.nId) (if r.bFolder then trees R idx k r.nId else [])

section Build
variable {ν : Type} (ops : NodeOps ν) (base : FavoriteLineData → ℕ → ν)

mutual
/-- The node of a tree; a folder without children keeps the array it was made with. -/
def build : Node → ν
  | .node r id children => match buildAll children with
    | [] => base r id
    | cs => ops.setChildren (base r id) cs
def buildAll : List Node → List ν
  | [] => []
  | t :: ts => build t :: buildAll ts
end

theorem buildAll_eq : ∀ ts : List Node, buildAll ops base ts = ts.map (build ops base)
  | [] => rfl
  | t :: ts => by rw [buildAll, buildAll_eq ts]; rfl

theorem build_leaf (r : FavoriteLineData) (id : ℕ) :
    build ops base (.node r id []) = base r id := rfl

theorem build_inner (r : FavoriteLineData) (id : ℕ) {ts : List Node} (h : ts ≠ []) :
    build ops base (.node r id ts) = ops.setChildren (base r id) (ts.map (build ops base)) := by
  cases ts with
  | nil => exact absurd rfl h
  | cons t ts => rw [build, buildAll_eq]; rfl

end Build

/-! ### Ids -/

/-- The records are numbered from `n` on, in this order. -/
def Numbered (idx : ℤ → ℕ) : ℕ → List (FavoriteLineData × ℕ) → Prop
  | _, [] => True
  | n, e :: A => idx e.1.nId = nextIndex n ∧ Numbered idx (nextIndex n) A

/-- `m_nIndex` after that. -/
def indexAfter : ℕ → List (FavoriteLineData × ℕ) → ℕ
  | n, [] => n
  | n, _ :: A => indexAfter (nextIndex n) A

theorem numbered_append {idx : ℤ → ℕ} : ∀ {A B : List (FavoriteLineData × ℕ)} {n : ℕ},
    Numbered idx n (A ++ B) ↔ Numbered idx n A ∧ Numbered idx (indexAfter n A) B
  | [], _, _ => by simp [Numbered, indexAfter]
  | e :: A, B, n => by
    rw [List.cons_append, Numbered, Numbered, indexAfter, numbered_append, and_assoc]

theorem indexAfter_append : ∀ (A B : List (FavoriteLineData × ℕ)) (n : ℕ),
    indexAfter n (A ++ B) = indexAfter (indexAfter n A) B
  | [], _, _ => rfl
  | _ :: A, B, n => indexAfter_append A B (nextIndex n)

/-- The id that the numbering of `l` gives to `x`. -/
def idOf (n : ℕ) (l : List (FavoriteLineData × ℕ)) (x : ℤ) : ℕ :=
  (n + 1 + (l.map (·.1.nId)).idxOf x) % 2 ^ 32

theorem numbered_idOf {l : List (FavoriteLineData × ℕ)} (hl : (l.map (·.1.nId)).Nodup) {n : ℕ} :
    Numbered (idOf n l) n l := by
  suffices h : ∀ (A done : List (FavoriteLineData × ℕ)) (m : ℕ), l = done ++ A →
      m % 2 ^ 32 = (n + done.length) % 2 ^ 32 → Numbered (idOf n l) m A from h l [] n rfl rfl
  intro A
  induction A with
  | nil => intros; trivial
  | cons e A ih =>
    intro done m hdone hm
    have hnext : nextIndex m = (n + done.length + 1) % 2 ^ 32 := by
      rw [nextIndex, Nat.add_mod, hm, ← Nat.add_mod]
    have hpos : (l.map (·.1.nId)).idxOf e.1.nId = done.length := by
      have hlt : done.length < (l.map (·.1.nId)).length := by simp [hdone]
      have hget : (l.map (·.1.nId))[done.length] = e.1.nId := by simp [hdone]
      rw [← hget, hl.idxOf_getElem]
    refine ⟨?_, ih (done ++ [e]) (nextIndex m) (by simp [hdone]) ?_⟩
    · rw [idOf, hpos, hnext]
      congr 1
      omega
    · rw [hnext, Nat.mod_mod, List.length_append, List.length_singleton, add_assoc]

/-- Fewer than 2^32 records get different ids, and none gets the id the numbering starts from. -/
theorem idOf_inj {l : List (FavoriteLineData × ℕ)} {n : ℕ} (hlen : l.length + 1 < 2 ^ 32)
    {e f : FavoriteLineData × ℕ} (he : e ∈ l) (hf : f ∈ l)
    (h : idOf n l e.1.nId = idOf n l f.1.nId) : e.1.nId = f.1.nId := by
  have hpos : ∀ e ∈ l, (l.map (·.1.nId)).idxOf e.1.nId < l.length := fun e he => by
    simpa using List.idxOf_lt_length_of_mem (List.mem_map_of_mem (f := (·.1.nId)) he)
  have hpe := hpos e he
  have hpf := hpos f hf
  have heq : (l.map (·.1.nId)).idxOf e.1.nId = (l.map (·.1.nId)).idxOf f.1.nId := by
    rw [idOf, idOf] at h
    omega
  exact (List.idxOf_inj (List.mem_map_of_mem (f := (·.1.nId)) he)).mp heq

theorem idOf_ne {l : List (FavoriteLineData × ℕ)} {n : ℕ} (hlen : l.length + 1 < 2 ^ 32)
    {e : FavoriteLineData × ℕ} (he : e ∈ l) : idOf n l e.1.nId ≠ n := by
  have hpe : (l.map (·.1.nId)).idxOf e.1.nId < l.length := by
    simpa using List.idxOf_lt_length_of_mem (List.mem_map_of_mem (f := (·.1.nId)) he)
  rw [idOf]
  omega

/-! ### Making the nodes of a level -/

section Level
variable {ν : Type} {ops : NodeOps ν} {base : FavoriteLineData → ℕ → ν} {ppData : PPData}
  {idx : ℤ → ℕ}

/-- `vecPidList` after one more record. -/
def addPid (vec : List ℤ) (e : FavoriteLineData × ℕ) : List ℤ :=
  if e.1.nPid ∈ vec then vec else vec ++ [e.1.nPid]

theorem addPid_spec : ∀ (A : List (FavoriteLineData × ℕ)) (vec : List ℤ), vec.Nodup →
    (A.foldl addPid vec).Nodup ∧
    ∀ p, p ∈ A.foldl addPid vec ↔ p ∈ vec ∨ ∃ e ∈ A, e.1.nPid = p
  | [], vec, h => by simp [h]
  | e :: A, vec, h => by
    have hstep : (addPid vec e).Nodup ∧ ∀ p, p ∈ addPid vec e ↔ p ∈ vec ∨ e.1.nPid = p := by
      rw [addPid]
      split
      next hmem =>
        refine ⟨h, fun p => ⟨.inl, ?_⟩⟩
        rintro (hp | rfl)
        · exact hp
        · exact hmem
      next hmem =>
        refine ⟨List.nodup_append.mpr ⟨h, List.nodup_singleton _, ?_⟩, fun p => ?_⟩
        · rintro x hx y hy rfl
          rw [List.mem_singleton] at hy
          exact hmem (hy ▸ hx)
        · rw [List.mem_append, List.mem_singleton, eq_comm]
    obtain ⟨hnd, hmem⟩ := addPid_spec A (addPid vec e) hstep.1
    refine ⟨hnd, fun p => ?_⟩
    rw [List.foldl_cons, hmem, hstep.2, or_assoc]
    simp

/-- The node made for a record. -/
abbrev nodeOf (base : FavoriteLineData → ℕ → ν) (idx : ℤ → ℕ) (e : FavoriteLineData × ℕ) : ν :=
  base e.1 (idx e.1.nId)

variable (ops base idx) in
/-- Every record gets its node and its entry in `m_mapIdIndexInfo`. -/
theorem makeLoop_eq : ∀ (A : List (FavoriteLineData × ℕ)) (st : Level ν),
    (∀ e ∈ A, recAt ppData e.2 = some e.1) → (A.map (·.1.nId)).Nodup →
    (∀ e ∈ A, ops.make e.1 (idx e.1.nId) = some (nodeOf base idx e)) →
    Numbered idx st.members.m_nIndex A →
    (∀ e ∈ A, st.members.m_mapIdIndexInfo.lookup e.1.nId = none) →
    (A.map (·.2)).foldlM (makeStep ops ppData) st = some
      { mapPidObj := st.mapPidObj ++ A.map fun e => (e.1.nPid, e.2, nodeOf base idx e)
        vecPidList := A.foldl addPid st.vecPidList
        members := { st.members with
          m_nIndex := indexAfter st.members.m_nIndex A
          m_mapIdIndexInfo :=
            st.members.m_mapIdIndexInfo ++ A.map fun e => (e.1.nId, idx e.1.nId) } }
  | [], st, _, _, _, _, _ => by simp [indexAfter]
  | e :: A, st, hslot, hnd, hmake, hnum, hnew => by
    obtain ⟨hid, hnum⟩ := hnum
    obtain ⟨hne, hnd⟩ := List.nodup_cons.mp hnd
    have hstep : makeStep ops ppData st e.2 = some
        { mapPidObj := st.mapPidObj ++ [(e.1.nPid, e.2, nodeOf base idx e)]
          vecPidList := addPid st.vecPidList e
          members := { st.members with
            m_nIndex := nextIndex st.members.m_nIndex
            m_mapIdIndexInfo := st.members.m_mapIdIndexInfo ++ [(e.1.nId, idx e.1.nId)] } } := by
      rw [makeStep, hslot e List.mem_cons_self]
      simp only [← hid]
      rw [hmake e List.mem_cons_self, insertNew, hnew e List.mem_cons_self]
      rfl
    rw [List.map_cons, List.foldlM_cons, hstep, Option.bind_eq_bind, Option.bind_some,
      makeLoop_eq A _ (fun f hf => hslot f (List.mem_cons_of_mem _ hf)) hnd
        (fun f hf => hmake f (List.mem_cons_of_mem _ hf)) hnum]
    · simp [indexAfter]
    · intro f hf
      rw [lookup_append, hnew f (List.mem_cons_of_mem _ hf), lookup_cons, if_neg]
      · rfl
      · intro he
        exact hne (List.mem_map.mpr ⟨f, hf, he⟩)

/-- A run that comes to its end made every node. -/
theorem makeLoop_inv : ∀ (A : List (FavoriteLineData × ℕ)) (st st' : Level ν),
    (∀ e ∈ A, recAt ppData e.2 = some e.1) → Numbered idx st.members.m_nIndex A →
    (A.map (·.2)).foldlM (makeStep ops ppData) st = some st' →
    (∀ e ∈ A, (ops.make e.1 (idx e.1.nId)).isSome) ∧
      st'.members.m_nIndex = indexAfter st.members.m_nIndex A ∧
      st'.members.m_mapDepthInfo = st.members.m_mapDepthInfo
  | [], st, st', _, _, hrun => by
    obtain rfl : st = st' := by simpa using hrun
    exact ⟨by simp, rfl, rfl⟩
  | e :: A, st, st', hslot, hnum, hrun => by
    rw [List.map_cons, List.foldlM_cons, Option.bind_eq_bind] at hrun
    obtain ⟨st₁, hstep, hrun⟩ := Option.bind_eq_some_iff.mp hrun
    rw [makeStep, hslot e List.mem_cons_self] at hstep
    obtain ⟨node, hmake, rfl⟩ := Option.map_eq_some_iff.mp hstep
    obtain ⟨hall, hidx, hdepth⟩ := makeLoop_inv A _ st'
      (fun f hf => hslot f (List.mem_cons_of_mem _ hf)) hnum.2 hrun
    refine ⟨fun f hf => ?_, hidx, hdepth⟩
    rcases List.mem_cons.mp hf with rfl | hf
    · rw [hnum.1, hmake]
      rfl
    · exact hall f hf

/-! ### Grouping them by parent -/

/-- What a folder takes out of `m_mapPidNodeInfo` becomes its children. -/
def adopt (ops : NodeOps ν) (m : List (ℤ × List ν)) (r : FavoriteLineData) (n : ν) : ν :=
  if r.bFolder then
    match m.lookup r.nId with
    | some children => ops.setChildren n children
    | none => n
  else n

theorem adopt_congr {m m' : List (ℤ × List ν)} {r : FavoriteLineData} {n : ν}
    (h : r.bFolder = true → m.lookup r.nId = m'.lookup r.nId) : adopt ops m r n = adopt ops m' r n := by
  rw [adopt, adopt]
  split
  next hf => rw [h hf]
  next => rfl

/-- The map without the arrays of the folders in `A`. -/
structure Taken (A : List (FavoriteLineData × ℕ)) (m m' : List (ℤ × List ν)) : Prop where
  keys : Keys m → Keys m'
  gone : ∀ e ∈ A, e.1.bFolder = true → m'.lookup e.1.nId = none
  rest : ∀ x, (∀ e ∈ A, e.1.bFolder = true → e.1.nId ≠ x) → m'.lookup x = m.lookup x

theorem Taken.none {A : List (FavoriteLineData × ℕ)} {m m' : List (ℤ × List ν)} (h : Taken A m m')
    {x : ℤ} (hx : m.lookup x = none) : m'.lookup x = none := by
  by_cases hA : ∃ e ∈ A, e.1.bFolder = true ∧ e.1.nId = x
  · obtain ⟨e, he, hf, rfl⟩ := hA
    exact h.gone e he hf
  · rw [h.rest x fun e he hf hex => hA ⟨e, he, hf, hex⟩, hx]

variable (ops) in
theorem attachStep_eq (m : List (ℤ × List ν)) (arr : List ν) {e : FavoriteLineData × ℕ} (n : ν)
    (hslot : recAt ppData e.2 = some e.1) : ∃ m', Taken [e] m m' ∧
      attachStep ops ppData (m, arr) (e.2, n) = (m', arr ++ [adopt ops m e.1 n]) := by
  rw [attachStep, hslot]
  simp only [adopt]
  cases hf : e.1.bFolder with
  | false => exact ⟨m, ⟨id, by simp [hf], fun _ _ => rfl⟩, rfl⟩
  | true =>
    cases hl : m.lookup e.1.nId with
    | none => exact ⟨m, ⟨id, by simpa [hf] using hl, fun _ _ => rfl⟩, rfl⟩
    | some children =>
      refine ⟨eraseKey m e.1.nId, ⟨fun h => h.eraseKey _, ?_, ?_⟩, rfl⟩
      · simp [lookup_eraseKey]
      · intro x hx
        rw [lookup_eraseKey, if_neg]
        rintro rfl
        exact hx e List.mem_cons_self hf rfl

variable (ops base idx) in
theorem attachLoop_eq : ∀ (A : List (FavoriteLineData × ℕ)) (m : List (ℤ × List ν)) (arr : List ν),
    (∀ e ∈ A, recAt ppData e.2 = some e.1) → (A.map (·.1.nId)).Nodup → ∃ m', Taken A m m' ∧
      (A.map fun e => (e.2, nodeOf base idx e)).foldl (attachStep ops ppData) (m, arr) =
        (m', arr ++ A.map fun e => adopt ops m e.1 (nodeOf base idx e))
  | [], m, arr, _, _ => ⟨m, ⟨id, by simp, fun _ _ => rfl⟩, by simp⟩
  | e :: A, m, arr, hslot, hnd => by
    obtain ⟨hne, hnd⟩ := List.nodup_cons.mp hnd
    have hne' : ∀ f ∈ A, e.1.nId ≠ f.1.nId :=
      fun f hf he => hne (List.mem_map.mpr ⟨f, hf, he.symm⟩)
    obtain ⟨m₁, h₁, hstep⟩ := attachStep_eq ops m arr (nodeOf base idx e)
      (hslot e List.mem_cons_self)
    obtain ⟨m₂, h₂, hrun⟩ := attachLoop_eq A m₁ (arr ++ [adopt ops m e.1 (nodeOf base idx e)])
      (fun f hf => hslot f (List.mem_cons_of_mem _ hf)) hnd
    refine ⟨m₂, ⟨fun h => h₂.keys (h₁.keys h), ?_, ?_⟩, ?_⟩
    · intro f hf hfold
      rcases List.mem_cons.mp hf with rfl | hf
      · rw [h₂.rest _ fun g hg _ he => hne' g hg he.symm]
        exact h₁.gone f List.mem_cons_self hfold
      · exact h₂.gone f hf hfold
    · intro x hx
      rw [h₂.rest x fun f hf => hx f (List.mem_cons_of_mem _ hf),
        h₁.rest x (by simpa using hx e List.mem_cons_self)]
    · rw [List.map_cons, List.foldl_cons, hstep, hrun, List.map_cons, List.append_assoc,
        List.singleton_append]
      congr 3
      refine List.map_congr_left fun f hf => ?_
      exact adopt_congr fun _ => h₁.rest f.1.nId (by simpa using fun _ => hne' f hf)

variable (ops base idx) in
/-- The group of one parent id: its array is filed, and the folders in it took theirs. -/
theorem groupStep_eq {B : List (FavoriteLineData × ℕ)} {m : List (ℤ × List ν)} {p : ℤ}
    (hslot : ∀ e ∈ B, recAt ppData e.2 = some e.1) (hnd : (B.map (·.1.nId)).Nodup)
    (hsep : ∀ e ∈ B, e.1.bFolder = true → e.1.nId ≠ p) (hfree : m.lookup p = none) :
    ∃ m', Taken (B.filter (·.1.nPid = p)) m m' ∧
      groupStep ops ppData (B.map fun e => (e.1.nPid, e.2, nodeOf base idx e)) m p = insertNew m' p
        ((B.filter (·.1.nPid = p)).map fun e => adopt ops m e.1 (nodeOf base idx e)) ∧
      m'.lookup p = none := by
  have hgroup : ((B.map fun e => (e.1.nPid, e.2, nodeOf base idx e)).filter (·.1 = p)).map (·.2) =
      (B.filter (·.1.nPid = p)).map fun e => (e.2, nodeOf base idx e) := by
    rw [List.filter_map, List.map_map]
    rfl
  obtain ⟨m', hm', hrun⟩ := attachLoop_eq ops base idx
    (B.filter (·.1.nPid = p)) m [] (fun e he => hslot e (List.mem_of_mem_filter he))
    (hnd.sublist (List.filter_sublist.map _))
  refine ⟨m', hm', ?_, ?_⟩
  · simp only [groupStep, hgroup, hrun, List.nil_append]
  · rw [hm'.rest p fun e he => hsep e (List.mem_of_mem_filter he), hfree]

/-- The array filed under `p`, when `m` holds what the level below left. -/
def groupArray (ops : NodeOps ν) (base : FavoriteLineData → ℕ → ν) (idx : ℤ → ℕ)
    (B : List (FavoriteLineData × ℕ)) (m : List (ℤ × List ν)) (p : ℤ) : List ν :=
  (B.filter (·.1.nPid = p)).map fun e => adopt ops m e.1 (nodeOf base idx e)

theorem groupArray_congr {B : List (FavoriteLineData × ℕ)} {m m' : List (ℤ × List ν)} {p : ℤ}
    (h : ∀ e ∈ B, e.1.nPid = p → e.1.bFolder = true → m.lookup e.1.nId = m'.lookup e.1.nId) :
    groupArray ops base idx B m p = groupArray ops base idx B m' p := by
  refine List.map_congr_left fun e he => adopt_congr ?_
  obtain ⟨he, hp⟩ := List.mem_filter.mp he
  exact h e he (by simpa using hp)

variable (ops base idx) in
/-- All groups of a level whose parent ids are none of its own folders. -/
theorem groupLoop_spec {B : List (FavoriteLineData × ℕ)}
    (hslot : ∀ e ∈ B, recAt ppData e.2 = some e.1) (hnd : (B.map (·.1.nId)).Nodup) :
    ∀ (vec : List ℤ) (m : List (ℤ × List ν)), vec.Nodup → Keys m →
    (∀ p ∈ vec, ∀ e ∈ B, e.1.bFolder = true → e.1.nId ≠ p) → (∀ p ∈ vec, m.lookup p = none) →
    ∃ m', vec.foldl (groupStep ops ppData (B.map fun e => (e.1.nPid, e.2, nodeOf base idx e))) m = m' ∧
      Keys m' ∧ (∀ p ∈ vec, m'.lookup p = some (groupArray ops base idx B m p)) ∧
      (∀ x ∉ vec, m.lookup x = none → m'.lookup x = none) ∧
      (∀ x ∉ vec, (∀ e ∈ B, e.1.bFolder = true → e.1.nId ≠ x) → m'.lookup x = m.lookup x) ∧
      (∀ e ∈ B, e.1.nPid ∈ vec → e.1.bFolder = true → m'.lookup e.1.nId = none)
  | [], m, _, hk, _, _ => ⟨m, rfl, hk, by simp, fun _ _ h => h, fun _ _ _ => rfl, by simp⟩
  | p :: vec, m, hvec, hk, hsep, hfree => by
    obtain ⟨hp, hvec⟩ := List.nodup_cons.mp hvec
    obtain ⟨m₁, h₁, hstep, hp₁⟩ := groupStep_eq ops base idx hslot hnd
      (hsep p List.mem_cons_self) (hfree p List.mem_cons_self)
    have hother : ∀ x, x ≠ p →
        (insertNew m₁ p (groupArray ops base idx B m p)).lookup x = m₁.lookup x := by
      intro x hx
      rw [lookup_insertNew, if_neg hx, Option.or_none]
    obtain ⟨m₂, hrun, hk₂, h₂, hnone₂, hrest₂, hgone₂⟩ := groupLoop_spec hslot hnd vec
      (insertNew m₁ p (groupArray ops base idx B m p)) hvec ((h₁.keys hk).insertNew _ _)
      (fun q hq => hsep q (List.mem_cons_of_mem _ hq))
      (fun q hq => by
        rw [hother q fun hqp => hp (hqp ▸ hq)]
        exact h₁.none (hfree q (List.mem_cons_of_mem _ hq)))
    refine ⟨m₂, ?_, hk₂, ?_, ?_, ?_, ?_⟩
    · rw [List.foldl_cons, hstep]
      exact hrun
    · intro q hq
      rcases List.mem_cons.mp hq with rfl | hqv
      · rw [hrest₂ q hp (hsep q List.mem_cons_self), lookup_insertNew, hp₁, if_pos rfl]
        rfl
      · -- the folders of another group still find what the level below left
        rw [h₂ q hqv]
        refine congrArg some (groupArray_congr fun e he heq hf => ?_)
        rw [hother _ (hsep p List.mem_cons_self e he hf), h₁.rest]
        intro f hf' _ hid
        obtain ⟨hfB, hfp⟩ := List.mem_filter.mp hf'
        have hfe := congrArg (·.1.nPid) (List.inj_on_of_nodup_map hnd hfB he hid)
        have hfp : f.1.nPid = p := by simpa using hfp
        exact hp (hfp ▸ (hfe.trans heq) ▸ hqv)
    · intro x hx hnone
      rw [List.mem_cons, not_or] at hx
      refine hnone₂ x hx.2 ?_
      rw [hother x hx.1]
      exact h₁.none hnone
    · intro x hx hxB
      rw [List.mem_cons, not_or] at hx
      rw [hrest₂ x hx.2 hxB, hother x hx.1, h₁.rest x fun e he => hxB e (List.mem_of_mem_filter he)]
    · intro e he hpid hf
      rcases List.mem_cons.mp hpid with hpid | hpid
      · refine hnone₂ _ (fun hmem => hsep _ (List.mem_cons_of_mem _ hmem) e he hf rfl) ?_
        rw [hother _ (hsep p List.mem_cons_self e he hf)]
        exact h₁.gone e (List.mem_filter.mpr ⟨he, by simpa using hpid⟩) hf
      · exact hgone₂ e he hpid hf

end Level

/-! ### From the deepest level to the top -/

section Run
variable {ν : Type} {ops : NodeOps ν} {base : FavoriteLineData → ℕ → ν} {ppData : PPData}
  {idx : ℤ → ℕ} {E : List (FavoriteLineData × ℕ)} {dep : FavoriteLineData → ℕ}

/-- The records at one depth. -/
def level (E : List (FavoriteLineData × ℕ)) (dep : FavoriteLineData → ℕ) (n : ℕ) :
    List (FavoriteLineData × ℕ) := E.filter fun e => dep e.1 = n

/-- The records at depths below `n`, in the order their nodes are made. -/
def order (E : List (FavoriteLineData × ℕ)) (dep : FavoriteLineData → ℕ) :
    ℕ → List (FavoriteLineData × ℕ)
  | 0 => []
  | n + 1 => level E dep n ++ order E dep n

theorem mem_level {n : ℕ} {e : FavoriteLineData × ℕ} :
    e ∈ level E dep n ↔ e ∈ E ∧ dep e.1 = n := by
  simp [level]

theorem mem_order {n : ℕ} {e : FavoriteLineData × ℕ} :
    e ∈ order E dep n ↔ e ∈ E ∧ dep e.1 < n := by
  induction n with
  | zero => simp [order]
  | succ n ih =>
    rw [order, List.mem_append, mem_level, ih, Nat.lt_succ_iff_lt_or_eq]
    tauto

variable (E dep) in
theorem order_perm (n : ℕ) : (order E dep n).Perm (E.filter fun e => dep e.1 < n) := by
  induction n with
  | zero => simp [order]
  | succ n ih =>
    have hsplit := List.filter_append_perm (fun e : FavoriteLineData × ℕ => decide (dep e.1 = n))
      (E.filter fun e => dep e.1 < n + 1)
    rw [List.filter_filter, List.filter_filter] at hsplit
    have h₁ : (E.filter fun e => decide (dep e.1 = n) && decide (dep e.1 < n + 1)) = level E dep n :=
      List.filter_congr fun e _ => by
        rw [Bool.eq_iff_iff]
        simp only [Bool.and_eq_true, decide_eq_true_eq]
        omega
    have h₂ : (E.filter fun e => (!decide (dep e.1 = n)) && decide (dep e.1 < n + 1)) =
        E.filter fun e => dep e.1 < n :=
      List.filter_congr fun e _ => by
        rw [Bool.eq_iff_iff]
        simp only [Bool.and_eq_true, Bool.not_eq_true', decide_eq_true_eq, decide_eq_false_iff_not]
        omega
    rw [h₁, h₂] at hsplit
    exact (ih.append_left _).trans hsplit

theorem Plan.order_nodup (hP : Plan ppData E dep) (n : ℕ) :
    ((order E dep n).map (·.1.nId)).Nodup :=
  ((order_perm E dep n).map _).nodup_iff.mpr (hP.nodup.sublist (List.filter_sublist.map _))

/-- Levels above the deepest one are empty. -/
theorem order_add {m : ℕ} (hm : ∀ e ∈ E, dep e.1 < m) (k : ℕ) :
    order E dep (m + k) = order E dep m := by
  induction k with
  | zero => rfl
  | succ k ih =>
    have hempty : level E dep (m + k) = [] :=
      List.filter_eq_nil_iff.mpr fun e he h => by
        have := hm e he
        simp only [decide_eq_true_eq] at h
        omega
    rw [← Nat.add_assoc, order, hempty, List.nil_append, ih]

theorem order_eq {m n : ℕ} (hm : ∀ e ∈ E, dep e.1 < m) (hn : ∀ e ∈ E, dep e.1 < n) :
    order E dep m = order E dep n := by
  rcases le_total m n with h | h
  · obtain ⟨k, rfl⟩ := Nat.exists_eq_add_of_le h
    exact (order_add hm k).symm
  · obtain ⟨k, rfl⟩ := Nat.exists_eq_add_of_le h
    exact order_add hn k

/-- Records with the same parent are at the same depth. -/
theorem Plan.siblings (hP : Plan ppData E dep) {e f : FavoriteLineData × ℕ} (he : e ∈ E) (hf : f ∈ E)
    (h : e.1.nPid = f.1.nPid) : dep e.1 = dep f.1 := by
  have hle : ∀ {e f : FavoriteLineData × ℕ}, e ∈ E → f ∈ E → e.1.nPid = f.1.nPid →
      0 < dep e.1 → dep e.1 = dep f.1 := by
    intro e f he hf h hpos
    obtain ⟨g, hg, hgf, hge⟩ := hP.top e he hpos
    rw [hP.up e he g hg hgf hge, hP.up f hf g hg hgf (hge.trans h)]
  rcases Nat.eq_zero_or_pos (dep e.1) with h0 | hpos
  · rcases Nat.eq_zero_or_pos (dep f.1) with h0' | hpos'
    · rw [h0, h0']
    · exact (hle hf he h.symm hpos').symm
  · exact hle he hf h hpos

theorem Plan.siblings_level (hP : Plan ppData E dep) {n : ℕ} {e : FavoriteLineData × ℕ}
    (he : e ∈ level E dep n) : (E.map (·.1)).filter (·.nPid = e.1.nPid) =
      ((level E dep n).filter (·.1.nPid = e.1.nPid)).map (·.1) := by
  obtain ⟨heE, hd⟩ := mem_level.mp he
  rw [List.filter_map, level, List.filter_filter]
  congr 1
  refine List.filter_congr fun f hf => ?_
  by_cases hp : f.1.nPid = e.1.nPid
  · simp [hp, hP.siblings hf heE hp, hd]
  · simp [hp]

/-- The map after the levels from `n` on, when there are `M` levels. -/
structure Filed (ops : NodeOps ν) (base : FavoriteLineData → ℕ → ν) (idx : ℤ → ℕ)
    (E : List (FavoriteLineData × ℕ)) (dep : FavoriteLineData → ℕ) (M n : ℕ)
    (m : List (ℤ × List ν)) : Prop where
  keys : Keys m
  here : ∀ e ∈ E, dep e.1 = n →
    m.lookup e.1.nPid = some ((trees (E.map (·.1)) idx (M - n) e.1.nPid).map (build ops base))
  none : ∀ x, (∀ e ∈ E, dep e.1 = n → e.1.nPid ≠ x) → m.lookup x = none

/-- A folder of level `n` takes its forest, if it has one. -/
theorem Filed.adopt_eq (hP : Plan ppData E dep) {M n : ℕ} (hM : ∀ e ∈ E, dep e.1 < M)
    {m : List (ℤ × List ν)} (hm : Filed ops base idx E dep M (n + 1) m) {e : FavoriteLineData × ℕ}
    (he : e ∈ level E dep n) : adopt ops m e.1 (nodeOf base idx e) = build ops base
      (.node e.1 (idx e.1.nId)
        (if e.1.bFolder then trees (E.map (·.1)) idx (M - (n + 1)) e.1.nId else [])) := by
  obtain ⟨heE, hd⟩ := mem_level.mp he
  rw [adopt]
  split
  next hf =>
    by_cases hg : ∃ g ∈ E, g.1.nPid = e.1.nId
    · obtain ⟨g, hg, hge⟩ := hg
      have hdg : dep g.1 = n + 1 := by rw [hP.up g hg e heE hf hge.symm, hd]
      have hne : trees (E.map (·.1)) idx (M - (n + 1)) e.1.nId ≠ [] := by
        obtain ⟨k, hk⟩ : ∃ k, M - (n + 1) = k + 1 := ⟨M - (n + 2), by have := hM g hg; omega⟩
        rw [hk, trees]
        refine List.ne_nil_of_mem (List.mem_map_of_mem (a := g.1) (List.mem_filter.mpr ⟨?_, ?_⟩))
        · exact List.mem_map_of_mem hg
        · simpa using hge
      rw [← hge, hm.here g hg hdg, hge, build_inner _ _ _ _ hne]
    · have hnone : trees (E.map (·.1)) idx (M - (n + 1)) e.1.nId = [] := by
        cases M - (n + 1) with
        | zero => rfl
        | succ k =>
          rw [trees, List.map_eq_nil_iff, List.filter_eq_nil_iff]
          intro r hr hre
          obtain ⟨g, hgE, rfl⟩ := List.mem_map.mp hr
          exact hg ⟨g, hgE, by simpa using hre⟩
      rw [hm.none e.1.nId fun g hgE _ hge => hg ⟨g, hgE, hge⟩, hnone, build_leaf]
  next => rw [build_leaf]

theorem Filed.groupArray_eq (hP : Plan ppData E dep) {M n : ℕ} (hn : n < M)
    (hM : ∀ e ∈ E, dep e.1 < M) {m : List (ℤ × List ν)}
    (hm : Filed ops base idx E dep M (n + 1) m) {e : FavoriteLineData × ℕ}
    (he : e ∈ level E dep n) : groupArray ops base idx (level E dep n) m e.1.nPid =
      (trees (E.map (·.1)) idx (M - n) e.1.nPid).map (build ops base) := by
  obtain ⟨k, hk⟩ : ∃ k, M - n = k + 1 := ⟨M - (n + 1), by omega⟩
  have hk' : M - (n + 1) = k := by omega
  rw [hk, trees, hP.siblings_level he, List.map_map, List.map_map, groupArray]
  refine List.map_congr_left fun f hf => ?_
  rw [hm.adopt_eq hP hM (List.mem_of_mem_filter hf), hk']
  rfl

variable (E dep) in
/-- The places of a level in `m_mapDepthInfo`. -/
theorem slots_level (n : ℕ) : ((E.map fun e => ((dep e.1 : ℤ), e.2)).filter (·.1 = (n : ℤ))).map (·.2) =
    (level E dep n).map (·.2) := by
  have hcast : ((·.1 = (n : ℤ) : ℤ × ℕ → Bool) ∘ fun e : FavoriteLineData × ℕ =>
      ((dep e.1 : ℤ), e.2)) = fun e => decide (dep e.1 = n) := by
    funext e
    simp
  rw [List.filter_map, List.map_map, level, hcast]
  rfl

/-- One level. -/
theorem traverseLevel_spec (hP : Plan ppData E dep) {M n : ℕ} (hn : n < M)
    (hM : ∀ e ∈ E, dep e.1 < M) {s : Members ν}
    (hdepth : s.m_mapDepthInfo = E.map fun e => ((dep e.1 : ℤ), e.2))
    (hm : Filed ops base idx E dep M (n + 1) s.m_mapPidNodeInfo)
    (hmake : ∀ e ∈ level E dep n, ops.make e.1 (idx e.1.nId) = some (nodeOf base idx e))
    (hnum : Numbered idx s.m_nIndex (level E dep n))
    (hnew : ∀ e ∈ level E dep n, s.m_mapIdIndexInfo.lookup e.1.nId = none) :
    ∃ s', traverseLevel ops ppData n s = some s' ∧
      Filed ops base idx E dep M n s'.m_mapPidNodeInfo ∧ s'.m_mapDepthInfo = s.m_mapDepthInfo ∧
      s'.m_nIndex = indexAfter s.m_nIndex (level E dep n) ∧ s'.m_mapIdIndexInfo =
        s.m_mapIdIndexInfo ++ (level E dep n).map fun e => (e.1.nId, idx e.1.nId) := by
  have hslots := slots_level E dep n
  rw [← hdepth] at hslots
  have hslot : ∀ e ∈ level E dep n, recAt ppData e.2 = some e.1 :=
    fun e he => hP.slot e (mem_level.mp he).1
  have hnd : ((level E dep n).map (·.1.nId)).Nodup :=
    hP.nodup.sublist (List.filter_sublist.map _)
  have hrun := makeLoop_eq ops base idx (level E dep n) ⟨[], [], s⟩ hslot
    hnd hmake hnum hnew
  obtain ⟨hvec, hpids⟩ := addPid_spec (level E dep n) [] List.nodup_nil
  -- a parent id of this level is no folder of this level
  have hsep : ∀ p ∈ (level E dep n).foldl addPid [], ∀ e ∈ level E dep n, e.1.bFolder = true →
      e.1.nId ≠ p := by
    intro p hp e he hf hep
    obtain ⟨g, hg, rfl⟩ := ((hpids p).mp hp).resolve_left (by simp)
    have := hP.up g (mem_level.mp hg).1 e (mem_level.mp he).1 hf hep
    rw [(mem_level.mp hg).2, (mem_level.mp he).2] at this
    omega
  have hfree : ∀ p, (∀ e ∈ level E dep n, e.1.bFolder = true → e.1.nId ≠ p) →
      s.m_mapPidNodeInfo.lookup p = none := by
    intro p hp
    refine hm.none p fun g hg hdg hgp => ?_
    obtain ⟨e, he, hf, heg⟩ := hP.top g hg (by omega)
    have := hP.up g hg e he hf heg
    exact hp e (mem_level.mpr ⟨he, by omega⟩) hf (heg.trans hgp)
  obtain ⟨m', hloop, hk, hhere, _, hrest, hgone⟩ := groupLoop_spec ops base idx
    hslot hnd _ s.m_mapPidNodeInfo hvec hm.keys hsep fun p hp => hfree p (hsep p hp)
  refine ⟨{ s with
      m_mapPidNodeInfo := m'
      m_nIndex := indexAfter s.m_nIndex (level E dep n)
      m_mapIdIndexInfo := s.m_mapIdIndexInfo ++
        (level E dep n).map fun e => (e.1.nId, idx e.1.nId) }, ?_, ⟨?_, ?_, ?_⟩, rfl, rfl, rfl⟩
  · rw [traverseLevel, hslots, hrun, ← hloop]
    rfl
  · exact hk
  · intro e he hd
    have hel : e ∈ level E dep n := mem_level.mpr ⟨he, hd⟩
    rw [hhere e.1.nPid ((hpids _).mpr (.inr ⟨e, hel, rfl⟩)), hm.groupArray_eq hP hn hM hel]
  · intro x hx
    have hxv : x ∉ (level E dep n).foldl addPid [] := by
      intro hmem
      obtain ⟨g, hg, hgx⟩ := ((hpids x).mp hmem).resolve_left (by simp)
      exact hx g (mem_level.mp hg).1 (mem_level.mp hg).2 hgx
    by_cases hfold : ∃ e ∈ level E dep n, e.1.bFolder = true ∧ e.1.nId = x
    · obtain ⟨e, he, hf, rfl⟩ := hfold
      exact hgone e he ((hpids _).mpr (.inr ⟨e, he, rfl⟩)) hf
    · have hno : ∀ e ∈ level E dep n, e.1.bFolder = true → e.1.nId ≠ x :=
        fun e he hf hex => hfold ⟨e, he, hf, hex⟩
      rw [hrest x hxv hno, hfree x hno]

/-- All levels below `n`. -/
theorem traverseNode_spec (hP : Plan ppData E dep) {M : ℕ} (hM : ∀ e ∈ E, dep e.1 < M) :
    ∀ (n : ℕ) (s : Members ν), n ≤ M →
    s.m_mapDepthInfo = E.map (fun e => ((dep e.1 : ℤ), e.2)) →
    Filed ops base idx E dep M n s.m_mapPidNodeInfo →
    (∀ e ∈ order E dep n, ops.make e.1 (idx e.1.nId) = some (nodeOf base idx e)) →
    Numbered idx s.m_nIndex (order E dep n) →
    (∀ e ∈ order E dep n, s.m_mapIdIndexInfo.lookup e.1.nId = none) →
    ∃ s', traverseNode ops ppData n s = some s' ∧
      Filed ops base idx E dep M 0 s'.m_mapPidNodeInfo ∧
      s'.m_nIndex = indexAfter s.m_nIndex (order E dep n) ∧ s'.m_mapIdIndexInfo =
        s.m_mapIdIndexInfo ++ (order E dep n).map fun e => (e.1.nId, idx e.1.nId)
  | 0, s, _, _, hm, _, _, _ => ⟨s, rfl, hm, rfl, by simp [order]⟩
  | n + 1, s, hn, hdepth, hm, hmake, hnum, hnew => by
    rw [order, numbered_append] at hnum
    obtain ⟨s₁, hlevel, hm₁, hdepth₁, hidx₁, hmap₁⟩ := traverseLevel_spec hP hn hM hdepth hm
      (fun e he => hmake e (List.mem_append_left _ he)) hnum.1
      fun e he => hnew e (List.mem_append_left _ he)
    -- the ids of the levels above are new to the map
    have hnew₁ : ∀ e ∈ order E dep n, s₁.m_mapIdIndexInfo.lookup e.1.nId = none := by
      intro e he
      rw [hmap₁, lookup_append, hnew e (List.mem_append_right _ he), Option.none_or,
        ← Option.not_isSome_iff_eq_none, ← mem_keys, List.map_map]
      intro hmem
      obtain ⟨f, hf, hfe⟩ := List.mem_map.mp hmem
      have hfe := List.inj_on_of_nodup_map hP.nodup (mem_level.mp hf).1 (mem_order.mp he).1 hfe
      have hlt := (mem_order.mp he).2
      rw [← hfe, (mem_level.mp hf).2] at hlt
      exact lt_irrefl n hlt
    obtain ⟨s₂, hrun, hm₂, hidx₂, hmap₂⟩ := traverseNode_spec hP hM n s₁ (by omega)
      (hdepth₁.trans hdepth) hm₁ (fun e he => hmake e (List.mem_append_right _ he))
      (hidx₁ ▸ hnum.2) hnew₁
    refine ⟨s₂, ?_, hm₂, ?_, ?_⟩
    · rw [traverseNode, hlevel, Option.bind_some, hrun]
    · rw [hidx₂, hidx₁, order, indexAfter_append]
    · rw [hmap₂, hmap₁, order, List.map_append, List.append_assoc]

theorem traverseNode_inv (hP : Plan ppData E dep) : ∀ (n : ℕ) (s s' : Members ν),
    s.m_mapDepthInfo = E.map (fun e => ((dep e.1 : ℤ), e.2)) →
    Numbered idx s.m_nIndex (order E dep n) → traverseNode ops ppData n s = some s' →
    ∀ e ∈ order E dep n, (ops.make e.1 (idx e.1.nId)).isSome
  | 0, _, _, _, _, _ => by simp [order]
  | n + 1, s, s', hdepth, hnum, hrun => by
    rw [order, numbered_append] at hnum
    rw [traverseNode] at hrun
    obtain ⟨s₁, hlevel, hrun⟩ := Option.bind_eq_some_iff.mp hrun
    rw [traverseLevel, hdepth, slots_level] at hlevel
    obtain ⟨st, hst, hs₁⟩ := Option.map_eq_some_iff.mp hlevel
    obtain ⟨hall, hidx, hsame⟩ := makeLoop_inv (level E dep n) _ st
      (fun e he => hP.slot e (mem_level.mp he).1) hnum.1 hst
    have hnum₁ : Numbered idx s₁.m_nIndex (order E dep n) := by
      rw [← hs₁]
      exact hidx.symm ▸ hnum.2
    have hdepth₁ : s₁.m_mapDepthInfo = E.map fun e => ((dep e.1 : ℤ), e.2) := by
      rw [← hs₁]
      exact hsame.trans hdepth
    have hrest := traverseNode_inv hP n s₁ s' hdepth₁ hnum₁ hrun
    intro e he
    rcases List.mem_append.mp he with he | he
    · exact hall e he
    · exact hrest e he

end Run

/-- The live records in the order their nodes are made. -/
def makeOrder (v : List FavoriteLineData) : List (FavoriteLineData × ℕ) :=
  order (liveAt v) (depthOf v) (v.length + 1)

/-- The id of a record's node, when `nIndex` ids were given out before the import. -/
def nodeId (v : List FavoriteLineData) (nIndex : ℕ) : ℤ → ℕ := idOf (nextIndex nIndex) (makeOrder v)

/-- The tree is what `TraverseNode` makes of the state after the depth loop. -/
theorem buildTree_eq {ν : Type} (ops : NodeOps ν) {v : List FavoriteLineData}
    (hv : Walk.Distinct links v) (nMaxDepth : ℤ) (nIndex : ℕ) :
    Plan (sortedData v) (liveAt v) (depthOf v) ∧ ∃ (s₀ : Members ν) (N : ℕ),
      buildTree ops nMaxDepth nIndex v =
        (traverseNode ops (sortedData v) N s₀).map (fun s => (s, sortedData v)) ∧
      (∀ e ∈ liveAt v, depthOf v e.1 < N) ∧ order (liveAt v) (depthOf v) N = makeOrder v ∧
      s₀.m_mapDepthInfo = (liveAt v).map (fun e => ((depthOf v e.1 : ℤ), e.2)) ∧
      s₀.m_mapPidNodeInfo = [] ∧ s₀.m_mapIdIndexInfo = [] ∧ s₀.m_nIndex = nextIndex nIndex := by
  obtain ⟨hP, s₀, hs₀, hdepth, hmax, hnode, hids, hidx⟩ :=
    depthLoop_plan (ν := ν) hv nMaxDepth (nextIndex nIndex)
  have hN : ∀ e ∈ liveAt v, depthOf v e.1 < (s₀.m_nMaxDepth + 1).toNat := by
    intro e he
    have := hmax e he
    omega
  refine ⟨hP, s₀, _, ?_, hN, order_eq hN (hP.dep_lt hv), hdepth, hnode, hids, hidx⟩
  rw [buildTree, sortByDepth_eq hv, Option.bind_some]
  change Option.map _ (traverseNode ops (sortedData v) ((depthLoop (sortedData v)
    { m_nMaxDepth := nMaxDepth, m_nIndex := nextIndex nIndex }).m_nMaxDepth + 1).toNat
    (depthLoop (sortedData v) _)) = _
  rw [hs₀]
  rfl

/-- Building the tree of a list with distinct nonzero ids: one array is left for every parent id at
    the top. -/
theorem buildTree_spec {ν : Type} (ops : NodeOps ν) {v : List FavoriteLineData}
    (hv : Walk.Distinct links v) (nMaxDepth : ℤ) (nIndex : ℕ) (base : FavoriteLineData → ℕ → ν)
    (hmake : ∀ e ∈ liveAt v, ops.make e.1 (nodeId v nIndex e.1.nId) =
      some (nodeOf base (nodeId v nIndex) e)) :
    ∃ N s, (∀ e ∈ liveAt v, depthOf v e.1 < N) ∧
      buildTree ops nMaxDepth nIndex v = some (s, sortedData v) ∧
      Filed ops base (nodeId v nIndex) (liveAt v) (depthOf v) N 0 s.m_mapPidNodeInfo ∧
      s.m_nIndex = indexAfter (nextIndex nIndex) (makeOrder v) ∧ s.m_mapIdIndexInfo =
        (makeOrder v).map fun e => (e.1.nId, nodeId v nIndex e.1.nId) := by
  obtain ⟨hP, s₀, N, hbuild, hN, horder, hdepth, hnode, hids, hidx⟩ :=
    buildTree_eq ops hv nMaxDepth nIndex
  have hstart : Filed ops base (nodeId v nIndex) (liveAt v) (depthOf v) N N s₀.m_mapPidNodeInfo := by
    rw [hnode]
    refine ⟨List.nodup_nil, fun e he hd => ?_, fun _ _ => rfl⟩
    exact absurd (hN e he) (by omega)
  obtain ⟨s, hrun, hfiled, hindex, hmap⟩ := traverseNode_spec hP hN _ s₀ le_rfl hdepth hstart
    (fun e he => hmake e (mem_order.mp he).1)
    (by rw [hidx, horder]; exact numbered_idOf (hP.order_nodup _)) (by rw [hids]; simp)
  rw [horder] at hindex hmap
  refine ⟨N, s, hN, ?_, hfiled, hidx ▸ hindex, by rw [hmap, hids, List.nil_append]⟩
  rw [hbuild, hrun]
  rfl

/-- A tree that was built has all its nodes. -/
theorem buildTree_inv {ν : Type} {ops : NodeOps ν} {v : List FavoriteLineData}
    (hv : Walk.Distinct links v) {nMaxDepth : ℤ} {nIndex : ℕ} {out : Members ν × PPData}
    (h : buildTree ops nMaxDepth nIndex v = some out) :
    ∀ e ∈ liveAt v, (ops.make e.1 (nodeId v nIndex e.1.nId)).isSome := by
  obtain ⟨hP, s₀, N, hbuild, hN, horder, hdepth, _, _, hidx⟩ :=
    buildTree_eq ops hv nMaxDepth nIndex
  rw [hbuild] at h
  obtain ⟨s, hrun, _⟩ := Option.map_eq_some_iff.mp h
  intro e he
  refine traverseNode_inv hP _ s₀ s hdepth ?_ hrun e (mem_order.mpr ⟨he, hN e he⟩)
  rw [hidx, horder]
  exact numbered_idOf (hP.order_nodup _)

end UrlTraveler.Chrome
