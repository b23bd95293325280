import UrlTraveler.PlugIn.Merge
import UrlTraveler.Schemes.Forest

/-! What a run of `Merge` can do, said once.

    Every change a run makes is a fold of two namesakes with the same parent (`Below`). A fold
    keeps all hash paths, and a call on a parent with path `π` only folds children of parents whose
    path ends in `π`, so everything outside that subtree is left alone:

        π <:+ path of the parent      the record may be marked and moved
        |path of the parent| ≤ |π|    it keeps its parent
        otherwise                     it is not touched

    `merge_moves` says that a call is a sequence of such folds and `merge_terminates` that it ends:
    the recursion descends one level of the forest at a time. -/

namespace UrlTraveler.Merge
open Sorting Forest Relation

/-- The array as a table of rows, labelled by `lab`. -/
def table {β : Type} (lab : FavoriteLineData → β) (d : PPData) : Table ℕ ℤ β := fun k =>
  (recAt d k).map fun r => ⟨r.nId, r.nPid, lab r⟩

/-- The rows labelled by title hash: what `Merge` sees. -/
abbrev hashes (d : PPData) : Table ℕ ℤ ℕ := table (·.nHashId) d

/-- One fold below `π`: slot `i` goes into its namesake and sibling `j`, and `ok i j` holds. -/
def Below (ok : ℕ → ℕ → Prop) (π : List ℕ) (d d' : PPData) : Prop :=
  ∃ i j ri rj p, ok i j ∧ recAt d i = some ri ∧ recAt d j = some rj ∧ ri.nPid = rj.nPid ∧
    ri.nHashId = rj.nHashId ∧ PathOf (hashes d) ri.nPid p ∧ π <:+ p ∧ d' = absorb d i j

/-- A sequence of folds below `π`. -/
abbrev Moves (ok : ℕ → ℕ → Prop) (π : List ℕ) : PPData → PPData → Prop :=
  ReflTransGen (Below ok π)

/-- `r'` differs from `r` in `nPid` and `bDelete` only, and no mark was taken back. -/
def Kept (r r' : FavoriteLineData) : Prop :=
  r' = { r with nPid := r'.nPid, bDelete := r'.bDelete } ∧ (r.bDelete = true → r'.bDelete = true)

section Tables
variable {β : Type} {lab : FavoriteLineData → β} {d d' : PPData}

theorem table_some {k : ℕ} {r : FavoriteLineData} (h : recAt d k = some r) :
    table lab d k = some ⟨r.nId, r.nPid, lab r⟩ := by simp [table, h]

theorem table_inv {k : ℕ} {row : Row ℤ β} (h : table lab d k = some row) :
    ∃ r, recAt d k = some r ∧ row = ⟨r.nId, r.nPid, lab r⟩ := by
  simp only [table, Option.map_eq_some_iff] at h
  obtain ⟨r, hr, rfl⟩ := h
  exact ⟨r, hr, rfl⟩

theorem table_slots {k : ℕ} {row : Row ℤ β} (h : table lab d k = some row) :
    k ∈ Finset.range d.length := by
  obtain ⟨r, hr, _⟩ := table_inv h
  exact Finset.mem_range.mpr (recAt_lt hr)

/-- Folding rehangs the children of the marked slot. -/
theorem table_absorb (hlab : ∀ hit a b r, lab (foldRec hit a b r) = lab r) (i j : ℕ) :
    table lab (absorb d i j) = rehang (table lab d) (idAt d i) (idAt d j) := by
  funext k
  simp only [table, rehang, recAt_absorb, Option.map_map]
  congr 1
  funext r
  simp only [Function.comp, hlab]
  rfl

/-- Keys do not depend on the labels. -/
theorem keyed_table {γ : Type} {lab' : FavoriteLineData → γ} (h : Keyed (table lab d)) :
    Keyed (table lab' d) where
  nonzero hi := by
    obtain ⟨r, hr, rfl⟩ := table_inv hi
    exact (h.nonzero (table_some hr) :)
  inj hi hj he := by
    obtain ⟨r, hr, rfl⟩ := table_inv hi
    obtain ⟨r', hr', rfl⟩ := table_inv hj
    exact h.inj (table_some hr) (table_some hr') he

/-- A vector without null pointers is keyed when its ids are nonzero and distinct. -/
theorem keyed_of_nodup {v : List FavoriteLineData} (hnd : (v.map (·.nId)).Nodup)
    (hnz : ∀ r ∈ v, r.nId ≠ 0) : Keyed (table lab (v.map some)) where
  nonzero hi := by
    obtain ⟨r, hr, rfl⟩ := table_inv hi
    rw [recAt_map_some] at hr
    exact hnz r (List.mem_of_getElem? hr)
  inj {i j _ _} hi hj he := by
    obtain ⟨r, hr, rfl⟩ := table_inv hi
    obtain ⟨r', hr', rfl⟩ := table_inv hj
    rw [recAt_map_some] at hr hr'
    have hlt : i < (v.map (·.nId)).length := by simpa using (List.getElem?_eq_some_iff.mp hr).1
    refine (List.getElem?_inj hlt hnd).mp ?_
    simpa [hr, hr'] using he

end Tables

/-! ### One fold -/

section Fold
variable {ok : ℕ → ℕ → Prop} {π : List ℕ} {d d' : PPData}

theorem Below.kept (h : Below ok π d d') {k : ℕ} {r : FavoriteLineData}
    (hr : recAt d k = some r) : ∃ r', recAt d' k = some r' ∧ Kept r r' := by
  obtain ⟨i, j, _, _, _, _, _, _, _, _, _, _, rfl⟩ := h
  refine ⟨_, recAt_absorb_of hr i j, rfl, ?_⟩
  intro hd
  simp [foldRec, hd]

theorem Below.hashAt_eq (h : Below ok π d d') : hashAt d' = hashAt d ∧ idAt d' = idAt d := by
  obtain ⟨i, j, _, _, _, _, _, _, _, _, _, _, rfl⟩ := h
  constructor <;> funext k <;> simp only [hashAt, idAt, recAt_absorb, Option.map_map] <;> rfl

/-- Keys and paths survive, for every label that namesakes share. -/
theorem Below.path {β : Type} {lab : FavoriteLineData → β} (h : Below ok π d d')
    (hlab : ∀ hit a b r, lab (foldRec hit a b r) = lab r)
    (hname : ∀ i j r r', recAt d i = some r → recAt d j = some r' → r.nHashId = r'.nHashId →
      lab r = lab r') (hk : Keyed (hashes d)) :
    Keyed (table lab d') ∧ ∀ {x p}, PathOf (table lab d') x p ↔ PathOf (table lab d) x p := by
  obtain ⟨i, j, ri, rj, _, _, hi, hj, hpid, hhash, _, _, rfl⟩ := h
  have hk' : Keyed (table lab d) := keyed_table hk
  rw [table_absorb hlab, idAt_eq hi, idAt_eq hj]
  exact ⟨keyed_rehang hk' _ _, pathOf_rehang hk' (table_some hi) (table_some hj) hpid
    (hname i j ri rj hi hj hhash)⟩

theorem Below.hash_path (h : Below ok π d d') (hk : Keyed (hashes d)) :
    Keyed (hashes d') ∧ ∀ {x p}, PathOf (hashes d') x p ↔ PathOf (hashes d) x p :=
  h.path (fun _ _ _ _ => rfl) (fun _ _ _ _ _ _ h => h) hk

/-- A fold of `i` touches siblings and children of `i` only. -/
theorem absorb_off (hk : Keyed (hashes d)) {i j k : ℕ} {ri r : FavoriteLineData} {p q : List ℕ}
    (hi : recAt d i = some ri) (hp : PathOf (hashes d) ri.nPid p) (hr : recAt d k = some r)
    (hq : PathOf (hashes d) r.nPid q) (hqp : q ≠ p) (hqi : q ≠ ri.nHashId :: p) :
    recAt (absorb d i j) k = some r := by
  have hik : i ≠ k := by
    rintro rfl
    obtain rfl : ri = r := by simpa [hi] using hr
    exact hqp (hq.unique hk hp)
  have hpid : r.nPid ≠ ri.nId := by
    intro he
    rw [he] at hq
    exact hqi (hq.unique hk (.up (table_some hi) hp))
  rw [recAt_absorb_of hr, idAt_eq hi]
  simp [foldRec, hik, hpid]

/-- Outside the subtree of `π` nothing happens. -/
theorem Below.off (h : Below ok π d d') (hk : Keyed (hashes d)) {k : ℕ}
    {r : FavoriteLineData} {q : List ℕ} (hr : recAt d k = some r)
    (hq : PathOf (hashes d) r.nPid q) (hoff : ¬ π <:+ q) : recAt d' k = some r := by
  obtain ⟨i, j, ri, rj, p, _, hi, hj, _, _, hp, hπ, rfl⟩ := h
  refine absorb_off hk hi hp hr hq ?_ ?_
  · rintro rfl; exact hoff hπ
  · rintro rfl; exact hoff (hπ.trans (List.suffix_cons _ _))

/-- Down to the children of `π`, parents are kept. -/
theorem Below.pid (h : Below ok π d d') (hk : Keyed (hashes d)) {k : ℕ}
    {r : FavoriteLineData} {q : List ℕ} (hr : recAt d k = some r)
    (hq : PathOf (hashes d) r.nPid q) (hlen : q.length ≤ π.length) :
    ∃ r', recAt d' k = some r' ∧ r'.nPid = r.nPid := by
  obtain ⟨i, j, ri, rj, p, _, hi, hj, _, _, hp, hπ, rfl⟩ := h
  have hpid : r.nPid ≠ ri.nId := by
    intro he
    have hpi : PathOf (hashes d) ri.nId (ri.nHashId :: p) := .up (table_some hi) hp
    rw [← he] at hpi
    have := hq.unique hk hpi
    have := hπ.length_le
    simp_all
    omega
  exact ⟨_, recAt_absorb_of hr i j, by simp [foldRec, idAt_eq hi, hpid]⟩

theorem Below.mono {π' : List ℕ} (hππ : π' <:+ π) (h : Below ok π d d') : Below ok π' d d' := by
  obtain ⟨i, j, ri, rj, p, h1, h2, h3, h4, h5, h6, hπ, h7⟩ := h
  exact ⟨i, j, ri, rj, p, h1, h2, h3, h4, h5, h6, hππ.trans hπ, h7⟩

end Fold

/-! ### A sequence of folds -/

section Run
variable {ok : ℕ → ℕ → Prop} {π : List ℕ} {d d' : PPData}

theorem Moves.hashAt_eq (h : Moves ok π d d') : hashAt d' = hashAt d ∧ idAt d' = idAt d := by
  induction h with
  | refl => exact ⟨rfl, rfl⟩
  | tail _ hstep ih =>
    obtain ⟨hh, hi⟩ := hstep.hashAt_eq
    exact ⟨hh.trans ih.1, hi.trans ih.2⟩

theorem Moves.length_eq (h : Moves ok π d d') : d'.length = d.length := by
  induction h with
  | refl => rfl
  | tail _ hstep ih =>
    obtain ⟨i, j, _, _, _, _, _, _, _, _, _, _, rfl⟩ := hstep
    rw [length_absorb, ih]

theorem Kept.trans {a b c : FavoriteLineData} (hab : Kept a b) (hbc : Kept b c) : Kept a c := by
  refine ⟨?_, fun h => hbc.2 (hab.2 h)⟩
  rw [hbc.1, hab.1]

theorem Moves.kept (h : Moves ok π d d') {k : ℕ} {r : FavoriteLineData}
    (hr : recAt d k = some r) : ∃ r', recAt d' k = some r' ∧ Kept r r' := by
  induction h with
  | refl => exact ⟨r, hr, rfl, id⟩
  | tail _ hstep ih =>
    obtain ⟨r', hr', hkept⟩ := ih
    obtain ⟨r'', hr'', hkept'⟩ := hstep.kept hr'
    exact ⟨r'', hr'', hkept.trans hkept'⟩

/-- Slots are neither filled nor emptied. -/
theorem Moves.kept_inv (h : Moves ok π d d') {k : ℕ} {r' : FavoriteLineData}
    (hr' : recAt d' k = some r') : ∃ r, recAt d k = some r ∧ Kept r r' := by
  induction h generalizing r' with
  | refl => exact ⟨r', hr', rfl, id⟩
  | tail _ hstep ih =>
    have hstep' := hstep
    obtain ⟨i, j, _, _, _, _, _, _, _, _, _, _, rfl⟩ := hstep'
    rw [recAt_absorb, Option.map_eq_some_iff] at hr'
    obtain ⟨r₁, hr₁, rfl⟩ := hr'
    obtain ⟨r, hr, hkept⟩ := ih hr₁
    obtain ⟨_, h2, hkept'⟩ := hstep.kept hr₁
    rw [recAt_absorb, hr₁] at h2
    cases h2
    exact ⟨r, hr, hkept.trans hkept'⟩

/-- Keys and paths are the same before and after, for every label that namesakes share. -/
theorem Moves.path {β : Type} {lab : FavoriteLineData → β} (h : Moves ok π d d')
    (hlab : ∀ r r', Kept r r' → lab r' = lab r)
    (hname : ∀ i j r r', recAt d i = some r → recAt d j = some r' → r.nHashId = r'.nHashId →
      lab r = lab r') (hk : Keyed (hashes d)) :
    Keyed (hashes d') ∧ ∀ {x p}, PathOf (table lab d') x p ↔ PathOf (table lab d) x p := by
  induction h with
  | refl => exact ⟨hk, Iff.rfl⟩
  | @tail d₁ d₂ hrun hstep ih =>
    have hname₁ : ∀ i j r r', recAt d₁ i = some r → recAt d₁ j = some r' →
        r.nHashId = r'.nHashId → lab r = lab r' := by
      intro i j r r' hr hr' he
      obtain ⟨r₀, hr₀, hkept⟩ := Moves.kept_inv hrun hr
      obtain ⟨r₀', hr₀', hkept'⟩ := Moves.kept_inv hrun hr'
      rw [hlab _ _ hkept, hlab _ _ hkept']
      rw [hkept.1, hkept'.1] at he
      exact hname i j r₀ r₀' hr₀ hr₀' he
    have hfold : ∀ hit a b r, lab (foldRec hit a b r) = lab r := fun hit a b r =>
      hlab r _ ⟨rfl, fun hd => by simp [foldRec, hd]⟩
    obtain ⟨hk', hp'⟩ := hstep.path hfold hname₁ ih.1
    exact ⟨keyed_table hk', hp'.trans ih.2⟩

theorem Moves.hash_path (h : Moves ok π d d') (hk : Keyed (hashes d)) :
    Keyed (hashes d') ∧ ∀ {x p}, PathOf (hashes d') x p ↔ PathOf (hashes d) x p :=
  h.path (fun r r' hkept => by rw [hkept.1]) (fun _ _ _ _ _ _ h => h) hk

theorem Moves.off (h : Moves ok π d d') (hk : Keyed (hashes d)) {k : ℕ} {r : FavoriteLineData}
    {q : List ℕ} (hr : recAt d k = some r) (hq : PathOf (hashes d) r.nPid q) (hoff : ¬ π <:+ q) :
    recAt d' k = some r := by
  induction h with
  | refl => exact hr
  | tail hrun hstep ih =>
    obtain ⟨hk', hp'⟩ := Moves.hash_path hrun hk
    exact hstep.off hk' ih (hp'.mpr hq) hoff

theorem Moves.pid (h : Moves ok π d d') (hk : Keyed (hashes d)) {k : ℕ} {r : FavoriteLineData}
    {q : List ℕ} (hr : recAt d k = some r) (hq : PathOf (hashes d) r.nPid q)
    (hlen : q.length ≤ π.length) : ∃ r', recAt d' k = some r' ∧ r'.nPid = r.nPid := by
  induction h with
  | refl => exact ⟨r, hr, rfl⟩
  | tail hrun hstep ih =>
    obtain ⟨r', hr', he⟩ := ih
    obtain ⟨hk', hp'⟩ := Moves.hash_path hrun hk
    obtain ⟨r'', hr'', he'⟩ := hstep.pid hk' hr' (he ▸ hp'.mpr hq) hlen
    exact ⟨r'', hr'', he'.trans he⟩

theorem Moves.mono {π' : List ℕ} (hππ : π' <:+ π) (h : Moves ok π d d') : Moves ok π' d d' :=
  ReflTransGen.mono (fun _ _ => Below.mono hππ) _ _ h

/-- A record may have moved, but never to a parent with another path. -/
theorem Moves.parent_path (h : Moves ok π d d') (hk : Keyed (hashes d)) {k : ℕ}
    {r' : FavoriteLineData} {q : List ℕ} (hr' : recAt d' k = some r')
    (hq : PathOf (hashes d) r'.nPid q) :
    ∃ r, recAt d k = some r ∧ Kept r r' ∧ PathOf (hashes d) r.nPid q := by
  obtain ⟨hk', hp'⟩ := h.hash_path hk
  obtain ⟨r, hr, hkept⟩ := h.kept_inv hr'
  have hpath : PathOf (hashes d) r.nId (r.nHashId :: q) := by
    have := hp'.mp (PathOf.up (table_some hr') (hp'.mpr hq))
    rw [hkept.1] at this
    exact this
  obtain ⟨q', hq', hpar⟩ := hpath.inv hk (table_some hr)
  obtain rfl : q = q' := by simpa using hq'
  exact ⟨r, hr, hkept, hpar⟩

/-- The children of `π` itself: same slots before and after. -/
theorem Moves.child_iff (h : Moves ok π d d') (hk : Keyed (hashes d)) {P : ℤ}
    (hP : PathOf (hashes d) P π) (k : ℕ) :
    (∃ r, recAt d' k = some r ∧ r.nPid = P) ↔ ∃ r, recAt d k = some r ∧ r.nPid = P := by
  constructor
  · rintro ⟨r', hr', rfl⟩
    obtain ⟨r, hr, _, hpar⟩ := h.parent_path hk hr' hP
    obtain ⟨r'', hr'', he⟩ := h.pid hk hr hpar le_rfl
    obtain rfl : r' = r'' := by simpa [hr'] using hr''
    exact ⟨r, hr, he.symm⟩
  · rintro ⟨r, hr, rfl⟩
    exact h.pid hk hr hP le_rfl

end Run

/-! ### A call is a sequence of folds -/

section Call
variable {ok : ℕ → ℕ → Prop} {σ : St → Sorter ℕ}

/-- The tie order only ever puts neighbours next to each other that satisfy `ok`. -/
def Orders (ok : ℕ → ℕ → Prop) (σ : St → Sorter ℕ) : Prop :=
  ∀ s p, ((σ s).sort (hashAt s.ppData) (collect s.ppData p)).Pairwise fun i j =>
    hashAt s.ppData i = hashAt s.ppData j → ok i j

/-- Any sorter orders distinct slots. -/
theorem orders_ne (σ : St → Sorter ℕ) : Orders (· ≠ ·) σ := by
  intro s p
  have hnd : (collect s.ppData p).Nodup := (collect_pairwise _ p).imp ne_of_lt
  have hnd' := ((σ s).perm (hashAt s.ppData) _).nodup_iff.mpr hnd
  refine List.Pairwise.imp ?_ hnd'
  intro i j hne _
  exact hne

/-- A stable sorter keeps slot order. -/
theorem orders_lt (hσ : ∀ s, (σ s).Stable) : Orders (· < ·) σ := fun s p =>
  (hσ s).ties (collect_pairwise _ p)

/-- One pair of the loop: its fold, if the hashes agree. -/
theorem below_absorb {π : List ℕ} {d : PPData} {P : ℤ} {i j : ℕ} (hP : PathOf (hashes d) P π)
    (hok : ok i j) (hi : ∃ r, recAt d i = some r ∧ r.nPid = P)
    (hj : ∃ r, recAt d j = some r ∧ r.nPid = P) (hh : hashAt d i = hashAt d j) :
    Below ok π d (absorb d i j) := by
  obtain ⟨ri, hi, rfl⟩ := hi
  obtain ⟨rj, hj, hpid⟩ := hj
  refine ⟨i, j, ri, rj, π, hok, hi, hj, hpid.symm, ?_, hP, List.suffix_rfl, rfl⟩
  rw [Merge.hashAt_eq hi, Merge.hashAt_eq hj] at hh
  exact_mod_cast hh

/-- The path of a child of `P`, whatever happened below. -/
theorem path_idAt {π : List ℕ} {d : PPData} {P : ℤ} {j : ℕ} (hP : PathOf (hashes d) P π)
    (hj : ∃ r, recAt d j = some r ∧ r.nPid = P) :
    ∃ h, PathOf (hashes d) (idAt d j) (h :: π) := by
  obtain ⟨rj, hj, rfl⟩ := hj
  exact ⟨rj.nHashId, idAt_eq hj ▸ PathOf.up (table_some hj) hP⟩

/-- What the recursive calls guarantee, as the loop uses it. -/
def CallMoves (ok : ℕ → ℕ → Prop) (call : St → ℤ → Option St) : Prop :=
  ∀ s P s' π, Keyed (hashes s.ppData) → PathOf (hashes s.ppData) P π →
    call s P = some s' → Moves ok π s.ppData s'.ppData

/-- The loop stands at `vec`, a sorted list of children of `P`, whose path is `π`. -/
structure LoopAt (ok : ℕ → ℕ → Prop) (P : ℤ) (π : List ℕ) (d : PPData) (vec : List ℕ) : Prop where
  keyed : Keyed (hashes d)
  path : PathOf (hashes d) P π
  child : ∀ k ∈ vec, ∃ r, recAt d k = some r ∧ r.nPid = P
  order : vec.Pairwise fun i j => hashAt d i = hashAt d j → ok i j
  sorted : vec.Pairwise fun i j => hashAt d i ≤ hashAt d j

variable {P : ℤ} {π : List ℕ}

theorem LoopAt.tail {d : PPData} {i : ℕ} {vec : List ℕ} (h : LoopAt ok P π d (i :: vec)) :
    LoopAt ok P π d vec where
  keyed := h.keyed
  path := h.path
  child k hk := h.child k (List.mem_cons_of_mem _ hk)
  order := (List.pairwise_cons.mp h.order).2
  sorted := (List.pairwise_cons.mp h.sorted).2

/-- `vec` is sorted, so a hash that is passed does not come again. -/
theorem LoopAt.passed {d : PPData} {i j : ℕ} {rest : List ℕ}
    (hat : LoopAt ok P π d (i :: j :: rest)) (hne : hashAt d i ≠ hashAt d j) :
    ∀ k ∈ j :: rest, hashAt d k ≠ hashAt d i := by
  intro k hk he
  have hij := (List.pairwise_cons.mp hat.sorted).1 j (by simp)
  rcases List.mem_cons.mp hk with rfl | hk
  · exact hne he.symm
  · have := (List.pairwise_cons.mp hat.tail.sorted).1 k hk
    exact hne (by omega)

/-- Folds below `P` leave the loop where it stands. -/
theorem LoopAt.moves {d d' : PPData} {vec : List ℕ} (h : LoopAt ok P π d vec)
    (hm : Moves ok π d d') : LoopAt ok P π d' vec where
  keyed := (hm.hash_path h.keyed).1
  path := (hm.hash_path h.keyed).2.mpr h.path
  child k hk := (hm.child_iff h.keyed h.path k).mpr (h.child k hk)
  order := by rw [hm.hashAt_eq.1]; exact h.order
  sorted := by rw [hm.hashAt_eq.1]; exact h.sorted

/-- The loop of a call starts at the sorted children. -/
theorem loopAt_collect (hok : Orders ok σ) {s : St} (hk : Keyed (hashes s.ppData))
    (hP : PathOf (hashes s.ppData) P π) :
    LoopAt ok P π s.ppData ((σ s).sort (hashAt s.ppData) (collect s.ppData P)) where
  keyed := hk
  path := hP
  child k hmem := by
    obtain ⟨r, hr, _, hpid⟩ := mem_collect.mp (((σ s).perm _ _).mem_iff.mp hmem)
    exact ⟨r, hr, hpid⟩
  order := hok s P
  sorted := (σ s).sorted _ _

/-- All children of `P` are collected. -/
theorem mem_sort_collect {s : St} (hk : Keyed (hashes s.ppData)) (k : ℕ) :
    k ∈ (σ s).sort (hashAt s.ppData) (collect s.ppData P) ↔
      ∃ r, recAt s.ppData k = some r ∧ r.nPid = P := by
  rw [((σ s).perm _ _).mem_iff, mem_collect]
  exact ⟨fun ⟨r, hr, _, hp⟩ => ⟨r, hr, hp⟩,
    fun ⟨r, hr, hp⟩ => ⟨r, hr, hk.nonzero (table_some hr), hp⟩⟩

/-- One round on `i :: j :: rest` with equal hashes is a fold and a call one level down. -/
structure Round (ok : ℕ → ℕ → Prop) (call : St → ℤ → Option St) (π : List ℕ) (i j g : ℕ)
    (s s₁ : St) : Prop where
  same : hashAt s.ppData i = hashAt s.ppData j
  order : ok i j
  call_eq : call { s with ppData := absorb s.ppData i j } (idAt s.ppData j) = some s₁
  path : PathOf (hashes s.ppData) (idAt s.ppData j) (g :: π)
  below : Below ok π s.ppData (absorb s.ppData i j)
  inner : Moves ok (g :: π) (absorb s.ppData i j) s₁.ppData

theorem Round.moves {call : St → ℤ → Option St} {i j g : ℕ} {s s₁ : St}
    (h : Round ok call π i j g s s₁) : Moves ok π s.ppData s₁.ppData :=
  (ReflTransGen.single h.below).trans (h.inner.mono (List.suffix_cons _ _))

/-- A pair with equal hashes is folded below the path of the loop, one level above the call. -/
theorem LoopAt.fold {d : PPData} {i j : ℕ} {rest : List ℕ} (hat : LoopAt ok P π d (i :: j :: rest))
    (hh : hashAt d i = hashAt d j) :
    ok i j ∧ Below ok π d (absorb d i j) ∧ Keyed (hashes (absorb d i j)) ∧
      ∃ g, PathOf (hashes d) (idAt d j) (g :: π) ∧
        PathOf (hashes (absorb d i j)) (idAt d j) (g :: π) := by
  have hok := (List.pairwise_cons.mp hat.order).1 j (by simp) hh
  have hb := below_absorb hat.path hok (hat.child i (by simp)) (hat.child j (by simp)) hh
  obtain ⟨hk', hp'⟩ := hb.hash_path hat.keyed
  obtain ⟨g, hpj⟩ := path_idAt hat.path (hat.child j (by simp))
  exact ⟨hok, hb, hk', g, hpj, hp'.mpr hpj⟩

theorem loop_round {call : St → ℤ → Option St} (hcall : CallMoves ok call) {s s₁ : St}
    {i j : ℕ} {rest : List ℕ} (hat : LoopAt ok P π s.ppData (i :: j :: rest))
    (hh : hashAt s.ppData i = hashAt s.ppData j)
    (hs₁ : call { s with ppData := absorb s.ppData i j } (idAt s.ppData j) = some s₁) :
    ∃ g, Round ok call π i j g s s₁ := by
  obtain ⟨hok, hb, hk', g, hpj, hpj'⟩ := hat.fold hh
  exact ⟨g, hh, hok, hs₁, hpj, hb, hcall ⟨absorb s.ppData i j, s.calls⟩ _ _ _ hk' hpj' hs₁⟩

/-- The loop rule: what holds at the end, is kept when a pair is passed, and is carried back over
    a round, holds at the start. The rest of the loop is at hand in both steps. -/
theorem loop_rule {call : St → ℤ → Option St} (hcall : CallMoves ok call) {s' : St}
    {motive : St → List ℕ → Prop}
    (stop : ∀ vec, vec.length ≤ 1 → LoopAt ok P π s'.ppData vec → motive s' vec)
    (skip : ∀ s i j rest, LoopAt ok P π s.ppData (i :: j :: rest) →
      hashAt s.ppData i ≠ hashAt s.ppData j → mergeLoop call s (j :: rest) = some s' →
      motive s (j :: rest) → motive s (i :: j :: rest))
    (fold : ∀ s s₁ i j g rest, LoopAt ok P π s.ppData (i :: j :: rest) →
      Round ok call π i j g s s₁ → mergeLoop call s₁ (j :: rest) = some s' →
      motive s₁ (j :: rest) → motive s (i :: j :: rest)) :
    ∀ (vec : List ℕ) (s : St), LoopAt ok P π s.ppData vec → mergeLoop call s vec = some s' →
      motive s vec
  | [], s, hat, h => by
    simp only [mergeLoop, Option.some.injEq] at h
    subst h; exact stop [] (by simp) hat
  | [v], s, hat, h => by
    simp only [mergeLoop, Option.some.injEq] at h
    subst h; exact stop [v] (by simp) hat
  | i :: j :: rest, s, hat, h => by
    simp only [mergeLoop] at h
    split at h
    case isFalse hne =>
      exact skip s i j rest hat hne h
        (loop_rule hcall stop skip fold (j :: rest) s hat.tail h)
    case isTrue hh =>
      obtain ⟨s₁, hs₁, h⟩ := Option.bind_eq_some_iff.mp h
      obtain ⟨g, hround⟩ := loop_round hcall hat hh hs₁
      exact fold s s₁ i j g rest hat hround h
        (loop_rule hcall stop skip fold (j :: rest) s₁ (hat.tail.moves hround.moves) h)

/-- A call on a parent with path `π` folds below `π`. -/
theorem merge_moves (hok : Orders ok σ) : ∀ fuel, CallMoves ok (merge σ fuel)
  | 0 => by intro s P s' π _ _ h; simp [merge] at h
  | fuel + 1 => by
    intro s P s' π hk hP h
    simp only [merge] at h
    split at h
    · refine loop_rule (merge_moves hok fuel) (motive := fun s _ => Moves ok π s.ppData s'.ppData)
        (fun _ _ _ => .refl) (fun _ _ _ _ _ _ _ ih => ih)
        (fun _ _ _ _ _ _ _ hround _ ih => hround.moves.trans ih) _ ⟨s.ppData, P :: s.calls⟩
        (loopAt_collect hok hk hP) h
    · simp only [Option.some.injEq] at h
      rw [← h]

/-! ### A call ends -/

/-- What `Merge` sees of the array: it skips records with id 0 as it skips null pointers. -/
def seen (d : PPData) : PPData := d.map (Option.filter (·.nId ≠ 0))

theorem recAt_seen (d : PPData) (k : ℕ) :
    recAt (seen d) k = (recAt d k).filter (·.nId ≠ 0) := by
  simp only [recAt, seen, List.getElem?_map]
  cases d[k]? <;> rfl

theorem recAt_seen_iff {d : PPData} {k : ℕ} {r : FavoriteLineData} :
    recAt (seen d) k = some r ↔ recAt d k = some r ∧ r.nId ≠ 0 := by
  rw [recAt_seen, Option.filter_eq_some_iff, decide_eq_true_eq]

theorem length_seen (d : PPData) : (seen d).length = d.length := List.length_map _

theorem keyed_seen_of_keyed {d : PPData} (hk : Keyed (hashes d)) : Keyed (hashes (seen d)) where
  nonzero hi := by
    obtain ⟨r, hr, rfl⟩ := table_inv hi
    exact (recAt_seen_iff.mp hr).2
  inj hi hj he := by
    obtain ⟨r, hr, rfl⟩ := table_inv hi
    obtain ⟨r', hr', rfl⟩ := table_inv hj
    exact hk.inj (table_some (recAt_seen_iff.mp hr).1) (table_some (recAt_seen_iff.mp hr').1) he

theorem idAt_seen (d : PPData) (i : ℕ) : idAt (seen d) i = idAt d i := by
  rw [idAt, idAt, recAt_seen]
  cases recAt d i with
  | none => rfl
  | some r => by_cases h : r.nId = 0 <;> simp [Option.filter, h]

theorem seen_mark (d : PPData) (i : ℕ) : seen (mark d i) = mark (seen d) i := by
  refine List.ext_getElem? fun k => ?_
  simp only [mark, seen, List.getElem?_map, List.getElem?_modify]
  cases d[k]? with
  | none => rfl
  | some o =>
    by_cases h : i = k
    · simp only [h, if_true, Option.map_eq_map, Option.map_some, Option.filter_map]
      rfl
    · simp only [h, if_false, Option.map_eq_map, Option.map_some]

theorem seen_reparent (d : PPData) (a b : ℤ) : seen (reparent d a b) = reparent (seen d) a b := by
  simp only [seen, reparent, List.map_map]
  congr 1
  funext o
  simp only [Function.comp_apply, Option.filter_map]
  congr 2
  funext r
  by_cases h : r.nPid = a <;> simp [h]

/-- A fold is seen as a fold. -/
theorem seen_absorb (d : PPData) (i j : ℕ) : seen (absorb d i j) = absorb (seen d) i j := by
  rw [absorb, absorb, seen_reparent, seen_mark, idAt_seen, idAt_seen]

/-- Folds of whatever slots. -/
abbrev Folds (π : List ℕ) : PPData → PPData → Prop := Moves (fun _ _ => True) π

/-- A call on a parent seen to have path `π` comes back, and folds below `π`. -/
def Ends (call : St → ℤ → Option St) (n : ℕ) (π : List ℕ) : Prop :=
  ∀ s P, s.ppData.length = n → Keyed (hashes (seen s.ppData)) →
    PathOf (hashes (seen s.ppData)) P π →
      ∃ s', call s P = some s' ∧ Folds π (seen s.ppData) (seen s'.ppData)

theorem mergeLoop_ends {call : St → ℤ → Option St} {n : ℕ} {P : ℤ} {π : List ℕ}
    (hcall : ∀ q, Ends call n (q :: π)) : ∀ (vec : List ℕ) (s : St), s.ppData.length = n →
      LoopAt (fun _ _ => True) P π (seen s.ppData) vec →
        ∃ s', mergeLoop call s vec = some s' ∧ Folds π (seen s.ppData) (seen s'.ppData)
  | [], s, _, _ => ⟨s, rfl, .refl⟩
  | [_], s, _, _ => ⟨s, rfl, .refl⟩
  | i :: j :: rest, s, hn, hat => by
    simp only [mergeLoop]
    split_ifs with hh
    · have hash : ∀ k ∈ i :: j :: rest, hashAt (seen s.ppData) k = hashAt s.ppData k := by
        intro k hk
        obtain ⟨r, hr, _⟩ := hat.child k hk
        rw [Merge.hashAt_eq hr, Merge.hashAt_eq (recAt_seen_iff.mp hr).1]
      rw [← hash i (by simp), ← hash j (by simp)] at hh
      obtain ⟨-, hb, hk', g, -, hpj⟩ := hat.fold hh
      rw [← seen_absorb, idAt_seen] at hpj
      rw [← seen_absorb] at hb hk'
      obtain ⟨s₁, hs₁, hinner⟩ := hcall g ⟨absorb s.ppData i j, s.calls⟩ (idAt s.ppData j)
        (by rw [length_absorb, hn]) hk' hpj
      have hfolds : Folds π (seen s.ppData) (seen s₁.ppData) :=
        (ReflTransGen.single hb).trans (hinner.mono (List.suffix_cons _ _))
      have hn₁ : s₁.ppData.length = n := by
        rw [← length_seen, hfolds.length_eq, length_seen, hn]
      obtain ⟨s', hs', hrest⟩ := mergeLoop_ends hcall (j :: rest) s₁ hn₁ (hat.tail.moves hfolds)
      exact ⟨s', by rw [hs₁, Option.bind_some, hs'], hfolds.trans hrest⟩
    · exact mergeLoop_ends hcall (j :: rest) s hn hat.tail

/-- The loop of a call starts at the sorted children, seen as it sees them. -/
theorem loopAt_seen (σ : St → Sorter ℕ) {s : St} {P : ℤ} {π : List ℕ}
    (hk : Keyed (hashes (seen s.ppData))) (hP : PathOf (hashes (seen s.ppData)) P π) :
    LoopAt (fun _ _ => True) P π (seen s.ppData)
      ((σ s).sort (hashAt s.ppData) (collect s.ppData P)) := by
  have hchild : ∀ k ∈ (σ s).sort (hashAt s.ppData) (collect s.ppData P),
      ∃ r, recAt (seen s.ppData) k = some r ∧ r.nPid = P ∧
        hashAt (seen s.ppData) k = hashAt s.ppData k := by
    intro k hk
    obtain ⟨r, hr, hne, hpid⟩ := mem_collect.mp (((σ s).perm _ _).mem_iff.mp hk)
    have hr' := recAt_seen_iff.mpr ⟨hr, hne⟩
    exact ⟨r, hr', hpid, by rw [Merge.hashAt_eq hr, Merge.hashAt_eq hr']⟩
  refine ⟨hk, hP, fun k hk => ?_, List.pairwise_of_forall fun _ _ _ => trivial, ?_⟩
  · obtain ⟨r, hr, hpid, -⟩ := hchild k hk
    exact ⟨r, hr, hpid⟩
  · refine ((σ s).sorted (hashAt s.ppData) (collect s.ppData P)).imp_of_mem ?_
    intro i j hi hj hle
    obtain ⟨_, _, _, hi'⟩ := hchild i hi
    obtain ⟨_, _, _, hj'⟩ := hchild j hj
    rwa [hi', hj']

/-- Each level of the recursion is one level of what is seen, and no path is longer than that. -/
theorem merge_ends (σ : St → Sorter ℕ) (n : ℕ) : ∀ (fuel : ℕ) (π : List ℕ),
    n < fuel + π.length → Ends (merge σ fuel) n π
  | 0, π, hfuel => by
    intro s P hn hk hP
    have hle := hP.length_le hk (fun i r h => table_slots h)
    rw [Finset.card_range, length_seen] at hle
    omega
  | fuel + 1, π, hfuel => by
    intro s P hn hk hP
    simp only [merge]
    split_ifs
    · refine mergeLoop_ends (P := P) (fun q => merge_ends σ n fuel (q :: π) ?_) _
        ⟨s.ppData, P :: s.calls⟩ hn (loopAt_seen σ hk hP)
      rw [List.length_cons]
      omega
    · exact ⟨_, rfl, .refl⟩

theorem loop_mono {call call' : St → ℤ → Option St}
    (hle : ∀ s P s', call s P = some s' → call' s P = some s') :
    ∀ (vec : List ℕ) (s s' : St), mergeLoop call s vec = some s' → mergeLoop call' s vec = some s'
  | [], _, _, h => h
  | [_], _, _, h => h
  | i :: j :: rest, s, s', h => by
    simp only [mergeLoop] at h ⊢
    split at h
    case isFalse hh => rw [if_neg hh]; exact loop_mono hle (j :: rest) s s' h
    case isTrue hh =>
      obtain ⟨s₁, hs₁, h⟩ := Option.bind_eq_some_iff.mp h
      rw [if_pos hh, hle _ _ _ hs₁, Option.bind_some]
      exact loop_mono hle (j :: rest) s₁ s' h

/-- More fuel never changes a result. -/
theorem merge_mono (σ : St → Sorter ℕ) : ∀ {fuel fuel' : ℕ} {s s' : St} {P : ℤ}, fuel ≤ fuel' →
    merge σ fuel s P = some s' → merge σ fuel' s P = some s'
  | 0, _, _, _, _, _, h => by simp [merge] at h
  | fuel + 1, 0, _, _, _, hle, _ => by omega
  | fuel + 1, fuel' + 1, s, s', P, hle, h => by
    simp only [merge] at h ⊢
    split at h
    case isTrue hv =>
      rw [if_pos hv]
      exact loop_mono (fun _ _ _ => merge_mono σ (by omega)) _ _ _ h
    case isFalse hv => rw [if_neg hv]; exact h

/-- `Merge(ppData, nLen, 0)` ends on every array with nonzero, distinct ids. -/
theorem merge_terminates (σ : St → Sorter ℕ) {d : PPData} (hk : Keyed (hashes d)) :
    ∃ s', mergeAll σ d = some s' ∧
      ∀ fuel, d.length < fuel → merge σ fuel ⟨d, []⟩ 0 = some s' := by
  obtain ⟨s', hs', -⟩ := merge_ends σ d.length (d.length + 1) [] (by simp) ⟨d, []⟩ 0 rfl
    (keyed_seen_of_keyed hk) .root
  exact ⟨s', hs', fun fuel hf => merge_mono σ hf hs'⟩

/-- The whole run, as folds below the root. -/
theorem mergeAll_moves (hok : Orders ok σ) {d : PPData} {s' : St} (hk : Keyed (hashes d))
    (h : mergeAll σ d = some s') : Moves ok [] d s'.ppData :=
  merge_moves hok _ ⟨d, []⟩ 0 s' [] hk .root h

end Call

end UrlTraveler.Merge
