import UrlTraveler.PlugIn.MergeRun

/-! `Merge` with a sort that keeps ties in array order.

    Then a record is only ever folded into a later slot of the array, and from there on the two
    travel together: they keep the same parent and the same hash. So every marked record is backed
    by a later namesake below the same parent, the last namesake is never marked, and folding a
    group ends at that last one. Two consequences:

        merge_wellFormed     the live records form a forest again
        merge_keeps_names    every title path of the input is still there after the erase loop -/

namespace UrlTraveler.Merge
open Sorting Forest Relation

/-- An array of records that form a forest, none of them deleted. -/
structure IsForest (d : PPData) : Prop where
  keyed : Keyed (hashes d)
  closed : Closed (hashes d)
  acyclic : Acyclic (hashes d)
  live : ∀ i r, recAt d i = some r → r.bDelete = false

theorem IsForest.rooted {d : PPData} (hf : IsForest d) {i : ℕ} {r : FavoriteLineData}
    (hr : recAt d i = some r) : ∃ p, PathOf (hashes d) r.nId p :=
  rooted_of_acyclic (fun _ _ => table_slots) hf.closed hf.acyclic (table_some hr)

/-- Neither parents nor cycles depend on the labels. -/
theorem IsForest.relabel {d : PPData} (hf : IsForest d) {β : Type} (lab : FavoriteLineData → β) :
    Closed (table lab d) ∧ Acyclic (table lab d) := by
  constructor
  · intro i row hrow
    obtain ⟨r, hr, rfl⟩ := table_inv hrow
    rcases hf.closed i _ (table_some hr) with h0 | ⟨j, row', hrow', he⟩
    · exact .inl h0
    · obtain ⟨r', hr', rfl⟩ := table_inv hrow'
      exact .inr ⟨j, _, table_some hr', he⟩
  · refine hf.acyclic.mono ?_
    rintro a b ⟨i, row, hrow, rfl, rfl⟩
    obtain ⟨r, hr, rfl⟩ := table_inv hrow
    exact ⟨i, _, table_some hr, rfl, rfl⟩

/-- A record without the two fields `Merge` writes. -/
def core (r : FavoriteLineData) : FavoriteLineData := { r with nPid := 0, bDelete := false }

theorem Kept.core_eq {r r' : FavoriteLineData} (h : Kept r r') : core r' = core r := by
  rw [h.1]; rfl

/-! ### Marked records are backed -/

/-- Every marked record has a later namesake below the same parent. -/
def Backed (d : PPData) : Prop := ∀ i r, recAt d i = some r → r.bDelete = true →
  ∃ j r', i < j ∧ recAt d j = some r' ∧ r'.nPid = r.nPid ∧ r'.nHashId = r.nHashId

theorem Below.backed {π : List ℕ} {d d' : PPData} (h : Below (· < ·) π d d') (hb : Backed d) :
    Backed d' := by
  obtain ⟨i, j, ri, rj, _, hij, hi, hj, hpid, hhash, _, _, rfl⟩ := h
  intro k r' hr' hdel
  rw [recAt_absorb, Option.map_eq_some_iff] at hr'
  obtain ⟨r, hr, rfl⟩ := hr'
  -- the mate of `k`: an old one, or `j` when `k = i` was marked just now
  obtain ⟨m, rm, hkm, hm, hmp, hmh⟩ : ∃ m rm, k < m ∧ recAt d m = some rm ∧ rm.nPid = r.nPid ∧
      rm.nHashId = r.nHashId := by
    by_cases hold : r.bDelete = true
    · exact hb k r hr hold
    · have hik : i = k := by simpa [foldRec, hold] using hdel
      subst hik
      obtain rfl : ri = r := by simpa [hi] using hr
      exact ⟨j, rj, hij, hj, hpid.symm, hhash.symm⟩
  refine ⟨m, _, hkm, recAt_absorb_of hm i j, ?_, hmh⟩
  simp [foldRec, hmp]

theorem Moves.backed {π : List ℕ} {d d' : PPData} (h : Moves (· < ·) π d d') (hb : Backed d) :
    Backed d' := by
  induction h with
  | refl => exact hb
  | tail _ hstep ih => exact hstep.backed ih

/-! ### Marked records end up without children -/

/-- Slot `k` is marked and still has a child. -/
def Orphaning (d : PPData) (k : ℕ) : Prop :=
  ∃ r, recAt d k = some r ∧ r.bDelete = true ∧ ∃ m c, recAt d m = some c ∧ c.nPid = r.nId

/-- A fold empties `i`; the only slot that can become orphaning is `j`. -/
theorem orphaning_absorb {d : PPData} (hk : Keyed (hashes d)) {i j k : ℕ}
    {ri rj : FavoriteLineData} (hi : recAt d i = some ri) (hj : recAt d j = some rj)
    (h : Orphaning (absorb d i j) k) : (Orphaning d k ∧ k ≠ i) ∨ k = j := by
  obtain ⟨r', hr', hdel, m, c', hc', hpid⟩ := h
  rw [recAt_absorb, Option.map_eq_some_iff] at hr' hc'
  obtain ⟨r, hr, rfl⟩ := hr'
  obtain ⟨c, hc, rfl⟩ := hc'
  simp only [foldRec, idAt_eq hi, idAt_eq hj] at hpid
  by_cases hci : c.nPid = ri.nId
  · rw [if_pos hci] at hpid
    exact .inr (hk.inj (table_some hr) (table_some hj) hpid.symm)
  · rw [if_neg hci] at hpid
    have hki : k ≠ i := by
      rintro rfl
      obtain rfl : ri = r := by simpa [hi] using hr
      exact hci hpid
    refine .inl ⟨⟨r, hr, ?_, m, c, hc, hpid⟩, hki⟩
    simpa [foldRec, Ne.symm hki] using hdel

/-- What the recursive calls guarantee about orphans. -/
def CallOrphans (call : St → ℤ → Option St) : Prop :=
  ∀ s P s' π, Keyed (hashes s.ppData) → PathOf (hashes s.ppData) P π → Backed s.ppData →
    call s P = some s' → ∀ k, Orphaning s'.ppData k → Orphaning s.ppData k

/-- All children of `P` lie in `vec` or were passed: they sort before its head. -/
def Covers (P : ℤ) (d : PPData) (vec : List ℕ) : Prop :=
  ∀ v ∈ vec.head?, ∀ k, (∃ r, recAt d k = some r ∧ r.nPid = P) →
    k ∈ vec ∨ hashAt d k < hashAt d v ∨ (hashAt d k = hashAt d v ∧ k < v)

theorem Covers.tail {P : ℤ} {π : List ℕ} {d : PPData} {i j : ℕ} {rest : List ℕ}
    (hat : LoopAt (· < ·) P π d (i :: j :: rest)) (hcov : Covers P d (i :: j :: rest)) :
    Covers P d (j :: rest) := by
  intro v hv k hkP
  obtain rfl : j = v := by simpa using hv
  have hij := (List.pairwise_cons.mp hat.sorted).1 j (by simp)
  have hlt := (List.pairwise_cons.mp hat.order).1 j (by simp)
  rcases hcov i (by simp) k hkP with hmem | h | ⟨heq, h⟩
  · rcases List.mem_cons.mp hmem with rfl | hmem
    · rcases hij.lt_or_eq with h | h
      · exact .inr (.inl h)
      · exact .inr (.inr ⟨h, hlt h⟩)
    · exact .inl hmem
  · exact .inr (.inl (by omega))
  · rcases hij.lt_or_eq with h' | h'
    · exact .inr (.inl (by omega))
    · have := hlt h'
      exact .inr (.inr ⟨by omega, by omega⟩)

theorem Covers.moves {ok : ℕ → ℕ → Prop} {P : ℤ} {π : List ℕ} {d d' : PPData} {vec : List ℕ}
    (hat : LoopAt ok P π d vec) (hm : Moves ok π d d') (hcov : Covers P d vec) :
    Covers P d' vec := by
  intro v hv k hkP
  rw [hm.hashAt_eq.1]
  exact hcov v hv k ((hm.child_iff hat.keyed hat.path k).mp hkP)

/-- The last of a group is not marked: nothing backs it. -/
theorem not_marked_of_last {P : ℤ} {π : List ℕ} {d : PPData} {v : ℕ} {rest : List ℕ}
    (hat : LoopAt (· < ·) P π d (v :: rest)) (hb : Backed d) (hcov : Covers P d (v :: rest))
    (hlast : ∀ w ∈ rest, hashAt d w ≠ hashAt d v) {r : FavoriteLineData}
    (hr : recAt d v = some r) : r.bDelete = false := by
  by_contra hdel
  obtain ⟨rv, hrv, hpid⟩ := hat.child v (by simp)
  obtain rfl : r = rv := by simpa [hr] using hrv
  obtain ⟨m, rm, hlt, hm, hmp, hmh⟩ := hb v r hr (by simpa using hdel)
  have hhash : hashAt d m = hashAt d v := by rw [hashAt_eq hm, hashAt_eq hr, hmh]
  rcases hcov v (by simp) m ⟨rm, hm, hmp.trans hpid⟩ with hmem | hlt' | ⟨_, hlt'⟩
  · rcases List.mem_cons.mp hmem with rfl | hmem
    · omega
    · exact hlast m hmem hhash
  · omega
  · omega

/-- If only the slot the loop stands at may be orphaning outside `B`, none is in the end: it hands
    its children on, up to the last of its group. -/
theorem loop_orphans {call : St → ℤ → Option St} (hmove : CallMoves (· < ·) call)
    (hcall : CallOrphans call) {P : ℤ} {π : List ℕ} {B : ℕ → Prop} (vec : List ℕ) (s s' : St)
    (hat : LoopAt (· < ·) P π s.ppData vec) (h : mergeLoop call s vec = some s') :
    Backed s.ppData → Covers P s.ppData vec →
      (∀ k, Orphaning s.ppData k → B k ∨ k ∈ vec.head?) → ∀ k, Orphaning s'.ppData k → B k := by
  refine loop_rule hmove (motive := fun s vec => Backed s.ppData → Covers P s.ppData vec →
    (∀ k, Orphaning s.ppData k → B k ∨ k ∈ vec.head?) → ∀ k, Orphaning s'.ppData k → B k)
    ?_ ?_ ?_ vec s hat h
  · intro vec hlen hat hb hcov hB k hor
    refine (hB k hor).resolve_right fun hkv => ?_
    obtain ⟨rest, rfl⟩ : ∃ rest, vec = k :: rest := List.head?_eq_some_iff.mp hkv
    obtain rfl : rest = [] := by simpa using hlen
    obtain ⟨r, hr, hdel, _⟩ := hor
    simp [not_marked_of_last hat hb hcov (by simp) hr] at hdel
  · intro s i j rest hat hne _ ih hb hcov hB
    refine ih hb (hcov.tail hat) fun k hor => ?_
    refine .inl ((hB k hor).resolve_right fun hki => ?_)
    obtain rfl : i = k := by simpa using hki
    obtain ⟨r, hr, hdel, _⟩ := hor
    simp [not_marked_of_last hat hb hcov (hat.passed hne) hr] at hdel
  · intro s s₁ i j g rest hat hround _ ih hb hcov hB
    have hm := hround.moves
    refine ih (hm.backed hb) ((hcov.tail hat).moves hat.tail hm) fun k hor => ?_
    obtain ⟨hka, hpa⟩ := hround.below.hash_path hat.keyed
    obtain ⟨ri, hri, _⟩ := hat.child i (by simp)
    obtain ⟨rj, hrj, _⟩ := hat.child j (by simp)
    have hor' := hcall ⟨absorb s.ppData i j, s.calls⟩ _ _ _ hka (hpa.mpr hround.path)
      (hround.below.backed hb) hround.call_eq k hor
    rcases orphaning_absorb hat.keyed hri hrj hor' with ⟨hold, hki⟩ | rfl
    · exact .inl ((hB k hold).resolve_right fun hik => hki (by simpa using hik.symm))
    · exact .inr (by simp)

/-- A call leaves no new marked record with children. -/
theorem merge_orphans {σ : St → Sorter ℕ} (hσ : ∀ s, (σ s).Stable) :
    ∀ fuel, CallOrphans (merge σ fuel)
  | 0 => by intro s P s' π _ _ _ h; simp [merge] at h
  | fuel + 1 => by
    intro s P s' π hk hP hb h
    simp only [merge] at h
    split at h
    · exact loop_orphans (B := Orphaning s.ppData) (merge_moves (orders_lt hσ) fuel)
        (merge_orphans hσ fuel) _ ⟨s.ppData, P :: s.calls⟩ s'
        (loopAt_collect (orders_lt hσ) hk hP) h hb
        (fun v _ k hkP => .inl ((mem_sort_collect (s := ⟨s.ppData, P :: s.calls⟩) hk k).mpr hkP))
        (fun k hor => .inl hor)
    · simp only [Option.some.injEq] at h
      rw [← h]
      exact fun k hor => hor

/-! ### The forest after the merge -/

/-- A live record of the result hangs below the root or below a live record. -/
theorem merge_live_parent {σ : St → Sorter ℕ} (hσ : ∀ s, (σ s).Stable) {d : PPData} {s' : St}
    (hf : IsForest d) (h : mergeAll σ d = some s') {i : ℕ} {r : FavoriteLineData}
    (hr : recAt s'.ppData i = some r) : r.nPid = 0 ∨
      ∃ j r', recAt s'.ppData j = some r' ∧ r'.nId = r.nPid ∧ r'.bDelete = false := by
  have hmoves := mergeAll_moves (orders_lt hσ) hf.keyed h
  obtain ⟨hk', hp'⟩ := hmoves.hash_path hf.keyed
  obtain ⟨r₀, hr₀, hkept⟩ := hmoves.kept_inv hr
  obtain ⟨p, hp⟩ := hf.rooted hr₀
  have hpr : PathOf (hashes s'.ppData) r.nId p := by
    rw [hkept.1]; exact hp'.mpr hp
  obtain ⟨q, _, hq⟩ := hpr.inv hk' (table_some hr)
  generalize hx : r.nPid = x at hq
  cases hq with
  | root => exact .inl rfl
  | up hrow _ =>
    obtain ⟨r', hr', rfl⟩ := table_inv hrow
    refine .inr ⟨_, r', hr', rfl, ?_⟩
    by_contra hdel
    have hor := merge_orphans hσ _ ⟨d, []⟩ 0 s' [] hf.keyed .root
      (fun i r hr hdel => by simp [hf.live i r hr] at hdel) h _
      ⟨r', hr', by simpa using hdel, i, r, hr, hx⟩
    obtain ⟨r₁, hr₁, hdel₁, _⟩ := hor
    simp [hf.live _ _ hr₁] at hdel₁

/-- WELL FORMED: with ties kept in array order, `Merge` ends, writes nothing but `nPid` and
    `bDelete`, and leaves an acyclic parent relation in which live records have live parents. -/
theorem merge_wellFormed (σ : St → Sorter ℕ) (hσ : ∀ s, (σ s).Stable) (d : PPData)
    (hf : IsForest d) : ∃ s', (∀ fuel, d.length < fuel → merge σ fuel ⟨d, []⟩ 0 = some s') ∧
      (s'.ppData.length = d.length ∧
        ∀ k, (recAt s'.ppData k).map core = (recAt d k).map core) ∧
      Acyclic (hashes s'.ppData) ∧
      ∀ i r, recAt s'.ppData i = some r → r.bDelete = false → r.nPid = 0 ∨
        ∃ j r', recAt s'.ppData j = some r' ∧ r'.nId = r.nPid ∧ r'.bDelete = false := by
  obtain ⟨s', hs', hfuel⟩ := merge_terminates σ hf.keyed
  have hmoves := mergeAll_moves (orders_lt hσ) hf.keyed hs'
  obtain ⟨hk', hp'⟩ := hmoves.hash_path hf.keyed
  refine ⟨s', hfuel, ⟨hmoves.length_eq, fun k => ?_⟩, ?_, fun i r hr _ =>
    merge_live_parent hσ hf hs' hr⟩
  · cases hr : recAt d k with
    | none =>
      cases hr' : recAt s'.ppData k with
      | none => rfl
      | some r' => obtain ⟨r, h, _⟩ := hmoves.kept_inv hr'; simp [hr] at h
    | some r =>
      obtain ⟨r', hr', hkept⟩ := hmoves.kept hr
      simp [hr', hkept.core_eq]
  · refine acyclic_of_rooted hk' fun i row hrow => ?_
    obtain ⟨r', hr', rfl⟩ := table_inv hrow
    obtain ⟨r, hr, hkept⟩ := hmoves.kept_inv hr'
    obtain ⟨p, hp⟩ := hf.rooted hr
    refine ⟨p, hp'.mpr ?_⟩
    rw [hkept.1]
    exact hp

/-- A vector with distinct nonzero ids whose parents have smaller ids. -/
theorem isForest_of_lt {v : List FavoriteLineData} (hnd : (v.map (·.nId)).Nodup)
    (hpos : ∀ r ∈ v, 0 < r.nId ∧ r.nPid < r.nId ∧ r.bDelete = false ∧
      (r.nPid = 0 ∨ ∃ r' ∈ v, r'.nId = r.nPid)) : IsForest (v.map some) where
  keyed := keyed_of_nodup hnd fun r hr => (hpos r hr).1.ne'
  closed := by
    intro i row hrow
    obtain ⟨r, hr, rfl⟩ := table_inv hrow
    rw [recAt_map_some] at hr
    rcases (hpos r (List.mem_of_getElem? hr)).2.2.2 with h0 | ⟨r', hr', he⟩
    · exact .inl h0
    · obtain ⟨j, hj⟩ := List.mem_iff_getElem?.mp hr'
      exact .inr ⟨j, _, table_some (by rw [recAt_map_some, hj]), he⟩
  acyclic := acyclic_of_lt fun i row hrow => by
    obtain ⟨r, hr, rfl⟩ := table_inv hrow
    rw [recAt_map_some] at hr
    exact (hpos r (List.mem_of_getElem? hr)).2.1
  live i r hr := by
    rw [recAt_map_some] at hr
    exact (hpos r (List.mem_of_getElem? hr)).2.2.1

/-- Three folders of one name and a bookmark in the first: the bookmark ends in the last. -/
def threeNamesakes : List FavoriteLineData :=
  [{ nId := 1, szTitle := ['n'], bFolder := true, nHashId := 5 },
   { nId := 2, szTitle := ['n'], bFolder := true, nHashId := 5 },
   { nId := 3, szTitle := ['n'], bFolder := true, nHashId := 5 },
   { nId := 4, szTitle := ['u'], nPid := 1, nHashId := 9 }]

theorem threeNamesakes_isForest : IsForest (threeNamesakes.map some) :=
  isForest_of_lt (by decide) (by decide)

theorem merge_wellFormed_threeNamesakes : ∃ s',
    (∀ fuel, 4 < fuel → merge (fun _ => insertion) fuel ⟨threeNamesakes.map some, []⟩ 0 = some s') ∧
      Acyclic (hashes s'.ppData) := by
  obtain ⟨s', hfuel, _, hac, _⟩ := merge_wellFormed (fun _ => insertion)
    (fun _ => insertion_stable) _ threeNamesakes_isForest
  exact ⟨s', hfuel, hac⟩

/-! ### The names after the erase loop -/

abbrev titles (d : PPData) : Table ℕ ℤ WStr := table (·.szTitle) d

/-- A forest as the plug-ins deliver it: parents are folders, titles are not empty, and the hash is
    a collision-free function of the title. -/
structure IsTitled (d : PPData) : Prop extends IsForest d where
  folder : ∀ i r, recAt d i = some r → r.nPid = 0 ∨
    ∃ j r', recAt d j = some r' ∧ r'.nId = r.nPid ∧ r'.bFolder = true
  titled : ∀ i r, recAt d i = some r → r.szTitle ≠ []
  hash : ∀ i j r r', recAt d i = some r → recAt d j = some r' →
    (r.nHashId = r'.nHashId ↔ r.szTitle = r'.szTitle)

/-- `r` in `v` and `t` in `w` have the same title and the same ancestor titles up to the root. -/
def SamePlace (v : List FavoriteLineData) (r : FavoriteLineData) (w : List FavoriteLineData)
    (t : FavoriteLineData) : Prop :=
  ∃ p, PathOf (titles (v.map some)) r.nId p ∧ PathOf (titles (w.map some)) t.nId p

/-- Every bookmark of `v` is in `w`, with its URL, at the same place. -/
def NothingLost (v w : List FavoriteLineData) : Prop :=
  ∀ r ∈ v, r.bFolder = false → ∃ t ∈ w, t.szUrl = r.szUrl ∧ SamePlace v r w t

/-- On an array without null pointers the erase loop is a filter. -/
theorem eraseDeleted_map_some : ∀ v : List FavoriteLineData, eraseDeleted (v.map some) =
    some (v.filter fun r => ¬ (r.bDelete = true ∨ r.szTitle = []))
  | [] => rfl
  | r :: v => by
    simp only [List.map_cons, eraseDeleted, eraseDeleted_map_some v, List.filter_cons]
    split <;> simp_all

/-- Folding never fills or empties a slot. -/
theorem Moves.map_some {ok : ℕ → ℕ → Prop} {π : List ℕ} {v : List FavoriteLineData} {d' : PPData}
    (h : Moves ok π (v.map some) d') : ∃ v' : List FavoriteLineData, d' = v'.map some := by
  induction h with
  | refl => exact ⟨v, rfl⟩
  | tail _ hstep ih =>
    obtain ⟨v₁, rfl⟩ := ih
    obtain ⟨i, j, _, _, _, _, _, _, _, _, _, _, rfl⟩ := hstep
    refine ⟨(v₁.modify i fun r => { r with bDelete := true }).map fun r =>
      if r.nPid = idAt (v₁.map some) i then { r with nPid := idAt (v₁.map some) j } else r, ?_⟩
    refine List.ext_getElem? fun k => ?_
    simp only [absorb, reparent, mark, List.getElem?_map, List.getElem?_modify]
    cases v₁[k]? with
    | none => rfl
    | some r => by_cases hik : i = k <;> simp [hik]

/-- The last of the backed namesakes is live. -/
theorem Backed.live {d : PPData} (hb : Backed d) {i : ℕ} {r : FavoriteLineData}
    (hr : recAt d i = some r) : ∃ j r', i ≤ j ∧ recAt d j = some r' ∧ r'.nPid = r.nPid ∧
      r'.nHashId = r.nHashId ∧ r'.bDelete = false := by
  by_cases hdel : r.bDelete = true
  · obtain ⟨j, r₁, hij, hj, hp, hh⟩ := hb i r hr hdel
    obtain ⟨m, r₂, hjm, hm, hp', hh', hlive⟩ := hb.live hj
    exact ⟨m, r₂, by omega, hm, hp'.trans hp, hh'.trans hh, hlive⟩
  · exact ⟨i, r, le_rfl, hr, rfl, rfl, by simpa using hdel⟩
termination_by d.length - i
decreasing_by have := recAt_lt hj; omega

/-- Live records keep their title path when the others are erased. -/
theorem path_erase {σ : St → Sorter ℕ} (hσ : ∀ s, (σ s).Stable) {d : PPData} {s' : St}
    (hf : IsTitled d) (h : mergeAll σ d = some s') {w : List FavoriteLineData}
    (hw : ∀ i r, recAt s'.ppData i = some r → r.bDelete = false → r ∈ w) {x : ℤ} {p : List WStr}
    (hp : PathOf (titles s'.ppData) x p)
    (hx : ∀ i r, recAt s'.ppData i = some r → r.nId = x → r.bDelete = false) :
    PathOf (titles (w.map some)) x p := by
  have hk' := ((mergeAll_moves (orders_lt hσ) hf.keyed h).hash_path hf.keyed).1
  induction hp with
  | root => exact .root
  | up hrow _ ih =>
    obtain ⟨r, hr, rfl⟩ := table_inv hrow
    obtain ⟨k, hk⟩ := List.mem_iff_getElem?.mp (hw _ r hr (hx _ r hr rfl))
    refine PathOf.up (table_some (by rw [recAt_map_some, hk])) (ih ?_)
    rintro i r₁ hr₁ he
    rcases merge_live_parent hσ hf.toIsForest h hr with h0 | ⟨j, r', hr', he', hlive⟩
    · exact absurd (he.trans h0) (hk'.nonzero (table_some hr₁))
    · obtain rfl := hk'.inj (table_some hr₁) (table_some hr') (he.trans he'.symm)
      obtain rfl : r₁ = r' := by simpa [hr₁] using hr'
      exact hlive

/-- NAMES KEPT: with ties kept in array order, every record survives `Merge` and the erase loop,
    or a later record of the same title and ancestor titles does: the title path is not lost, and
    neither is the URL when those later namesakes carry it. -/
theorem merge_keeps_names (σ : St → Sorter ℕ) (hσ : ∀ s, (σ s).Stable) (v : List FavoriteLineData)
    (hf : IsTitled (v.map some)) :
    ∃ s' w, mergeAll σ (v.map some) = some s' ∧ eraseDeleted s'.ppData = some w ∧
      ∀ (i : ℕ) r, v[i]? = some r → ∃ (j : ℕ) (r' t : FavoriteLineData), i ≤ j ∧ v[j]? = some r' ∧ SamePlace v r v r' ∧
        t ∈ w ∧ core t = core r' ∧ SamePlace v r w t := by
  obtain ⟨s', hs', _⟩ := merge_terminates σ hf.keyed
  have hmoves := mergeAll_moves (orders_lt hσ) hf.keyed hs'
  obtain ⟨v', hv'⟩ := hmoves.map_some
  have hw := eraseDeleted_map_some v'
  rw [← hv'] at hw
  refine ⟨s', _, hs', hw, fun i r hr => ?_⟩
  obtain ⟨hk', hp'⟩ : Keyed (hashes s'.ppData) ∧ ∀ {x p},
      PathOf (titles s'.ppData) x p ↔ PathOf (titles (v.map some)) x p :=
    hmoves.path (fun _ _ hkept => by rw [hkept.1])
      (fun i j r r' hr hr' => (hf.hash i j r r' hr hr').mp) hf.keyed
  rw [← recAt_map_some] at hr
  obtain ⟨r₁, hr₁, hkept⟩ := hmoves.kept hr
  have hbacked : Backed s'.ppData := hmoves.backed fun i r hr hdel => by simp [hf.live i r hr] at hdel
  obtain ⟨j, t, hij, ht, hpid, hhash, hlive⟩ := hbacked.live hr₁
  obtain ⟨r', hr', hkept'⟩ := hmoves.kept_inv ht
  have hid : t.nId = r'.nId := by rw [hkept'.1]
  have htitle : t.szTitle = r₁.szTitle := by
    have := (hf.hash j i r' r hr' hr).mp (by rw [hkept.1, hkept'.1] at hhash; exact hhash)
    rw [hkept'.1, hkept.1]
    exact this
  -- the path of `r`, read off in the result and continued from `t`
  obtain ⟨hclosed, hacyclic⟩ := hf.relabel (·.szTitle)
  obtain ⟨p, hp⟩ := rooted_of_acyclic (fun _ _ => table_slots) hclosed hacyclic (table_some hr)
  have hp₁ : PathOf (titles s'.ppData) r₁.nId p := by rw [hkept.1]; exact hp'.mpr hp
  have hpt : PathOf (titles s'.ppData) t.nId p := by
    obtain ⟨q, rfl, hq⟩ := hp₁.inv (keyed_table hk') (table_some hr₁)
    have hrow : titles s'.ppData j = some ⟨t.nId, t.nPid, t.szTitle⟩ := table_some ht
    have := PathOf.up hrow (by rw [hpid]; exact hq)
    rwa [htitle] at this
  have hwmem : ∀ i r, recAt s'.ppData i = some r → r.bDelete = false →
      r ∈ v'.filter fun r => ¬ (r.bDelete = true ∨ r.szTitle = []) := by
    intro i r hr hl
    obtain ⟨r₀, hr₀, hkept₀⟩ := hmoves.kept_inv hr
    have htl : r.szTitle ≠ [] := by rw [hkept₀.1]; exact hf.titled i r₀ hr₀
    rw [hv', recAt_map_some] at hr
    simp [List.mem_of_getElem? hr, hl, htl]
  refine ⟨j, r', t, hij, by rwa [recAt_map_some] at hr', ⟨p, hp, ?_⟩, hwmem j t ht hlive,
    hkept'.core_eq, p, hp, ?_⟩
  · rw [← hid]; exact hp'.mp hpt
  · refine path_erase hσ hf hs' hwmem hpt fun i r₂ hr₂ he => ?_
    obtain rfl := hk'.inj (table_some hr₂) (table_some ht) he
    obtain rfl : t = r₂ := by simpa [ht] using hr₂
    exact hlive

/-- A forest whose parents have smaller ids, with the titles checked on the list. -/
theorem isTitled_of_lt {v : List FavoriteLineData} (hnd : (v.map (·.nId)).Nodup)
    (hpos : ∀ r ∈ v, 0 < r.nId ∧ r.nPid < r.nId ∧ r.bDelete = false ∧ r.szTitle ≠ [] ∧
      (r.nPid = 0 ∨ ∃ r' ∈ v, r'.nId = r.nPid ∧ r'.bFolder = true))
    (hhash : ∀ r ∈ v, ∀ r' ∈ v, r.nHashId = r'.nHashId ↔ r.szTitle = r'.szTitle) :
    IsTitled (v.map some) where
  toIsForest := isForest_of_lt hnd fun r hr => by
    obtain ⟨h1, h2, h3, _, h5⟩ := hpos r hr
    exact ⟨h1, h2, h3, h5.imp_right fun ⟨r', hr', he, _⟩ => ⟨r', hr', he⟩⟩
  folder i r hr := by
    rw [recAt_map_some] at hr
    obtain ⟨_, _, _, _, h5⟩ := hpos r (List.mem_of_getElem? hr)
    refine h5.imp_right fun ⟨r', hr', he, hb⟩ => ?_
    obtain ⟨j, hj⟩ := List.mem_iff_getElem?.mp hr'
    exact ⟨j, r', by rw [recAt_map_some, hj], he, hb⟩
  titled i r hr := by
    rw [recAt_map_some] at hr
    exact (hpos r (List.mem_of_getElem? hr)).2.2.2.1
  hash i j r r' hr hr' := by
    rw [recAt_map_some] at hr hr'
    exact hhash r (List.mem_of_getElem? hr) r' (List.mem_of_getElem? hr')

theorem merge_keeps_names_threeNamesakes :
    ∃ s' w, mergeAll (fun _ => insertion) (threeNamesakes.map some) = some s' ∧
      eraseDeleted s'.ppData = some w ∧ ∃ t ∈ w, t.nId = 4 := by
  obtain ⟨s', w, hs', hw, h⟩ := merge_keeps_names (fun _ => insertion) (fun _ => insertion_stable)
    threeNamesakes (isTitled_of_lt (by decide) (by decide) (by decide))
  obtain ⟨j, r', t, hj, hr', _, ht, hcore, _⟩ := h 3 _ rfl
  have hid : t.nId = r'.nId := congrArg (·.nId) hcore
  obtain rfl : j = 3 := by
    have := (List.getElem?_eq_some_iff.mp hr').1
    simp only [threeNamesakes, List.length_cons, List.length_nil] at this
    omega
  simp only [threeNamesakes, List.getElem?_cons_succ, List.getElem?_cons_zero,
    Option.some.injEq] at hr'
  exact ⟨s', w, hs', hw, t, ht, by rw [hid, ← hr']⟩

/-- Two bookmarks of one title and different URLs, side by side. -/
def namesakeUrls : List FavoriteLineData :=
  [{ nId := 1, szTitle := ['a'], szUrl := ['x'], nHashId := 7 },
   { nId := 2, szTitle := ['a'], szUrl := ['y'], nHashId := 7 }]

/-- The first of them is gone: equality is decided by the title alone. -/
theorem merge_loses_url : ¬ ∀ (σ : St → Sorter ℕ) (v : List FavoriteLineData),
    IsTitled (v.map some) → ∀ s' w, mergeAll σ (v.map some) = some s' →
      eraseDeleted s'.ppData = some w → NothingLost v w := by
  intro h
  obtain ⟨t, ht, hurl, _⟩ := h (fun _ => insertion) namesakeUrls
    (isTitled_of_lt (by decide) (by decide) (by decide)) _
    [{ nId := 2, szTitle := ['a'], szUrl := ['y'], nHashId := 7 }] rfl rfl
    { nId := 1, szTitle := ['a'], szUrl := ['x'], nHashId := 7 } (by decide) rfl
  simp only [List.mem_singleton] at ht
  subst ht
  exact absurd hurl (by decide)

end UrlTraveler.Merge
