import UrlTraveler.PlugIn.MergeRun

/-! `Merge` when the sort orders ties as it likes.

    Below every parent that `Merge` was called on, each group of namesakes should keep exactly one
    live record (`OneLeft`). It never keeps two. It keeps none when a group is collected twice and
    the second sort puts a record last that the first one marked; a group is collected twice when it
    lies below three or more namesakes that are folded one after the other:

        F₁ ⊃ a    F₂ ⊃ b    F₃         all three of one name, a and b of one name
        F₁ → F₂   then Merge(F₂) sorts (a, b) and marks a
        F₂ → F₃   then Merge(F₃) sorts (b, a) and marks b

    `Overlap` is that shape, and `oneLeft_iff` says that it is the only way to lose a group. -/

namespace UrlTraveler.Merge
open Sorting Forest Relation

/-- Slot `k` holds a record with hash path `p`, read from the record up to the root. -/
def AtPath (d : PPData) (k : ℕ) (p : List ℕ) : Prop :=
  ∃ r, recAt d k = some r ∧ PathOf (hashes d) r.nId p

/-- Two records have the path `p`. -/
def Shared (d : PPData) (p : List ℕ) : Prop := ∃ a b, a ≠ b ∧ AtPath d a p ∧ AtPath d b p

/-- Three records have the path `p`. -/
def Tripled (d : PPData) (p : List ℕ) : Prop :=
  ∃ a b c, (a ≠ b ∧ a ≠ c ∧ b ≠ c) ∧ AtPath d a p ∧ AtPath d b p ∧ AtPath d c p

/-- From the root down to `p`, every name is there at least twice. -/
def Doubled (d : PPData) (p : List ℕ) : Prop := ∀ q, q ≠ [] → q <:+ p → Shared d q

/-- Three folders of one path, all of whose ancestors are merged, hold two records of one name. -/
def Overlap (d : PPData) : Prop := ∃ p h, Doubled d p ∧ Tripled d p ∧ Shared d (h :: p)

/-- Below every parent `Merge` was called on (the root and the records that absorbed another one),
    each group of namesakes has exactly one live record. -/
def OneLeft (s : St) : Prop := ∀ P ∈ s.calls, ∀ h,
  (∃ k r, recAt s.ppData k = some r ∧ r.nPid = P ∧ r.nHashId = h) →
    ∃! k, ∃ r, recAt s.ppData k = some r ∧ r.nPid = P ∧ r.nHashId = h ∧ r.bDelete = false

section Calls
variable {σ : St → Sorter ℕ}

/-- Slot `k` is marked. -/
def Marked (d : PPData) (k : ℕ) : Prop := ∃ r, recAt d k = some r ∧ r.bDelete = true

theorem Moves.marked {ok : ℕ → ℕ → Prop} {π : List ℕ} {d d' : PPData} (h : Moves ok π d d')
    {k : ℕ} (hk : Marked d k) : Marked d' k := by
  obtain ⟨r, hr, hd⟩ := hk
  obtain ⟨r', hr', hkept⟩ := h.kept hr
  exact ⟨r', hr', hkept.2 hd⟩

theorem marked_absorb {d : PPData} {i j : ℕ} {ri : FavoriteLineData} (hi : recAt d i = some ri) :
    Marked (absorb d i j) i :=
  ⟨_, recAt_absorb_of hi i j, by simp [foldRec]⟩

/-! ### At most one is left -/

/-- Below `P`, namesakes have at most one live record. -/
def AtMost (d : PPData) (P : ℤ) : Prop := ∀ k k' r r', recAt d k = some r → recAt d k' = some r' →
  r.nPid = P → r'.nPid = P → r.nHashId = r'.nHashId → r.bDelete = false → r'.bDelete = false →
  k = k'

/-- Only the absorbing record gets new children. -/
theorem AtMost.absorb {d : PPData} {Q : ℤ} (h : AtMost d Q) {i j : ℕ} (hQ : Q ≠ idAt d j) :
    AtMost (absorb d i j) Q := by
  intro k k' r r' hr hr' hp hp' hh hl hl'
  rw [recAt_absorb, Option.map_eq_some_iff] at hr hr'
  obtain ⟨r₀, hr₀, rfl⟩ := hr
  obtain ⟨r₀', hr₀', rfl⟩ := hr'
  have hpid : ∀ r₁ : FavoriteLineData, (if r₁.nPid = idAt d i then idAt d j else r₁.nPid) = Q →
      r₁.nPid = Q := by
    intro r₁ h₁
    split at h₁
    · exact absurd h₁.symm hQ
    · exact h₁
  simp only [foldRec, Bool.or_eq_false_iff] at hp hp' hl hl'
  exact h k k' r₀ r₀' hr₀ hr₀' (hpid r₀ hp) (hpid r₀' hp') hh hl.1 hl'.1

/-- What a call guarantees about live namesakes: below its own parent and below every parent it
    calls on, at most one is left, and where that held before it still does. -/
structure AtMostAfter (s : St) (P : ℤ) (s' : St) : Prop where
  here : AtMost s'.ppData P
  keep : ∀ Q, AtMost s.ppData Q → AtMost s'.ppData Q
  calls : ∀ Q ∈ s'.calls, Q ∈ s.calls ∨ AtMost s'.ppData Q
  grow : ∀ Q ∈ s.calls, Q ∈ s'.calls
  self : P ∈ s'.calls

def CallAtMost (call : St → ℤ → Option St) : Prop :=
  ∀ s P s' π, Keyed (hashes s.ppData) → PathOf (hashes s.ppData) P π → call s P = some s' →
    AtMostAfter s P s'

/-- The loop marks every slot that has a namesake behind it. -/
theorem loop_atMost {ok : ℕ → ℕ → Prop} {call : St → ℤ → Option St} (hmove : CallMoves ok call)
    (hcall : CallAtMost call) {P : ℤ} {π : List ℕ} (vec : List ℕ) (s s' : St)
    (hat : LoopAt ok P π s.ppData vec) (h : mergeLoop call s vec = some s') :
    (∀ Q, AtMost s.ppData Q → AtMost s'.ppData Q) ∧
    (∀ Q ∈ s'.calls, Q ∈ s.calls ∨ AtMost s'.ppData Q) ∧ (∀ Q ∈ s.calls, Q ∈ s'.calls) ∧
    Moves ok π s.ppData s'.ppData ∧
    vec.Pairwise (fun i j => hashAt s.ppData i = hashAt s.ppData j → Marked s'.ppData i) := by
  refine loop_rule hmove (motive := fun s vec =>
    (∀ Q, AtMost s.ppData Q → AtMost s'.ppData Q) ∧
    (∀ Q ∈ s'.calls, Q ∈ s.calls ∨ AtMost s'.ppData Q) ∧ (∀ Q ∈ s.calls, Q ∈ s'.calls) ∧
    Moves ok π s.ppData s'.ppData ∧
    vec.Pairwise fun i j => hashAt s.ppData i = hashAt s.ppData j → Marked s'.ppData i)
    ?_ ?_ ?_ vec s hat h
  · intro vec hlen _
    refine ⟨fun _ h => h, fun _ h => .inl h, fun _ h => h, .refl, ?_⟩
    match vec, hlen with
    | [], _ => exact List.Pairwise.nil
    | [_], _ => exact List.pairwise_singleton _ _
  · rintro s i j rest hat hne _ ⟨h1, h2, h3, h4, h5⟩
    refine ⟨h1, h2, h3, h4, List.pairwise_cons.mpr ⟨fun k hk he => ?_, h5⟩⟩
    exact absurd he.symm (hat.passed hne k hk)
  · rintro s s₁ i j g rest hat hround _ ⟨h1, h2, h3, h4, h5⟩
    obtain ⟨hka, hpa⟩ := hround.below.hash_path hat.keyed
    obtain ⟨here, keep, calls, grow, _⟩ := hcall ⟨absorb s.ppData i j, s.calls⟩ _ _ _ hka
      (hpa.mpr hround.path) hround.call_eq
    refine ⟨fun Q hQ => h1 Q ?_, fun Q hQ => ?_, fun Q hQ => h3 Q (grow Q hQ),
      hround.moves.trans h4, List.pairwise_cons.mpr ⟨fun k _ _ => ?_, ?_⟩⟩
    · rcases eq_or_ne Q (idAt s.ppData j) with rfl | hne
      · exact here
      · exact keep Q (hQ.absorb hne)
    · rcases h2 Q hQ with hQ | hQ
      · exact (calls Q hQ).imp id (h1 Q)
      · exact .inr hQ
    · obtain ⟨ri, hri, _⟩ := hat.child i (by simp)
      exact h4.marked (hround.inner.marked (marked_absorb hri))
    · rw [← hround.moves.hashAt_eq.1]; exact h5

theorem merge_atMost (σ : St → Sorter ℕ) : ∀ fuel, CallAtMost (merge σ fuel)
  | 0 => by intro s P s' π _ _ h; simp [merge] at h
  | fuel + 1 => by
    intro s P s' π hk hP h
    simp only [merge] at h
    split at h
    case isTrue hlen =>
      obtain ⟨h1, h2, h3, h4, h5⟩ := loop_atMost (merge_moves (orders_ne σ) fuel)
        (merge_atMost σ fuel) _ ⟨s.ppData, P :: s.calls⟩ s' (loopAt_collect (orders_ne σ) hk hP) h
      have here : AtMost s'.ppData P := by
        intro k k' r r' hr hr' hp hp' hh hl hl'
        by_contra hne
        have hmem : ∀ {k r}, recAt s'.ppData k = some r → r.nPid = P → k ∈
            (σ ⟨s.ppData, P :: s.calls⟩).sort (hashAt s.ppData) (collect s.ppData P) :=
          fun {k r} hr hp => (mem_sort_collect (s := ⟨s.ppData, P :: s.calls⟩) hk k).mpr
            ((h4.child_iff hk hP k).mp ⟨r, hr, hp⟩)
        have hhash : hashAt s.ppData k = hashAt s.ppData k' := by
          rw [← h4.hashAt_eq.1, hashAt_eq hr, hashAt_eq hr', hh]
        -- whichever comes first was marked
        rcases pairwise_either h5 (hmem hr hp) (hmem hr' hp') hne with h | h
        · obtain ⟨_, h₁, h₂⟩ := h hhash
          simp_all
        · obtain ⟨_, h₁, h₂⟩ := h hhash.symm
          simp_all
      refine ⟨here, h1, fun Q hQ => ?_, fun Q hQ => h3 Q (List.mem_cons_of_mem _ hQ),
        h3 P (by simp)⟩
      rcases h2 Q hQ with hQ | hQ
      · rcases List.mem_cons.mp hQ with rfl | hQ
        · exact .inr here
        · exact .inl hQ
      · exact .inr hQ
    case isFalse hlen =>
      simp only [Option.some.injEq] at h
      subst h
      have here : AtMost s.ppData P := by
        intro k k' r r' hr hr' hp hp' _ _ _
        refine eq_of_length_le_one (Nat.not_lt.mp hlen) ?_ ?_
        · exact mem_collect.mpr ⟨r, hr, hk.nonzero (table_some hr), hp⟩
        · exact mem_collect.mpr ⟨r', hr', hk.nonzero (table_some hr'), hp'⟩
      refine ⟨here, fun _ h => h, fun Q hQ => ?_, fun Q hQ => List.mem_cons_of_mem _ hQ, by simp⟩
      rcases List.mem_cons.mp hQ with rfl | hQ
      · exact .inr here
      · exact .inl hQ

/-! ### Rounds and the subtrees they leave alone -/

/-- Nothing happened to the records whose parents lie at or below `π`. -/
def Fresh (d₀ d : PPData) (π : List ℕ) : Prop := ∀ k r q, recAt d₀ k = some r →
  PathOf (hashes d₀) r.nPid q → π <:+ q → recAt d k = some r

/-- A call on `P` is the first one on its path: `P` has all the children there are on that path,
    none of them is marked, and everything below is fresh. -/
structure Ready (d₀ d : PPData) (π : List ℕ) (P : ℤ) : Prop where
  child : ∀ k r, recAt d₀ k = some r → PathOf (hashes d₀) r.nPid π →
    ∃ r', recAt d k = some r' ∧ r'.nPid = P ∧ r'.bDelete = false
  deep : ∀ h, Fresh d₀ d (h :: π)

variable {call : St → ℤ → Option St} {P : ℤ} {π : List ℕ} {d₀ : PPData} {s s₁ : St}
  {i j g : ℕ} {rest : List ℕ}

/-- Both slots of a round have the path `g :: π`. -/
theorem Round.paths (hround : Round (· ≠ ·) call π i j g s s₁)
    (hat : LoopAt (· ≠ ·) P π s.ppData (i :: j :: rest)) :
    ∃ ri rj, (recAt s.ppData i = some ri ∧ ri.nPid = P ∧ ri.nHashId = g) ∧
      (recAt s.ppData j = some rj ∧ rj.nPid = P ∧ rj.nHashId = g) := by
  obtain ⟨ri, hi, hip⟩ := hat.child i (by simp)
  obtain ⟨rj, hj, hjp⟩ := hat.child j (by simp)
  have hjg : rj.nHashId = g := by
    have := (idAt_eq hj ▸ hround.path).unique hat.keyed (.up (table_some hj) (hjp ▸ hat.path))
    simpa using this.symm
  have hij := hround.same
  rw [hashAt_eq hi, hashAt_eq hj, hjg] at hij
  exact ⟨ri, rj, ⟨hi, hip, by exact_mod_cast hij⟩, hj, hjp, hjg⟩

/-- A round on hash `g` touches siblings of its two slots and what lies below `g :: π`. -/
theorem Round.off (hround : Round (· ≠ ·) call π i j g s s₁)
    (hat : LoopAt (· ≠ ·) P π s.ppData (i :: j :: rest)) {k : ℕ} {r : FavoriteLineData}
    {q : List ℕ} (hr : recAt s.ppData k = some r) (hq : PathOf (hashes s.ppData) r.nPid q)
    (hne : q ≠ π) (hoff : ¬ g :: π <:+ q) : recAt s₁.ppData k = some r := by
  obtain ⟨ri, rj, ⟨hi, rfl, rfl⟩, _⟩ := hround.paths hat
  have hr' := absorb_off hat.keyed (j := j) hi hat.path hr hq hne
    (by rintro rfl; exact hoff List.suffix_rfl)
  obtain ⟨hk', hp'⟩ := hround.below.hash_path hat.keyed
  exact hround.inner.off hk' hr' (hp'.mpr hq) hoff

theorem Round.fresh (hround : Round (· ≠ ·) call π i j g s s₁)
    (hat : LoopAt (· ≠ ·) P π s.ppData (i :: j :: rest)) (hk₀ : Keyed (hashes d₀))
    (hrun : Moves (· ≠ ·) [] d₀ s.ppData) {h : ℕ} (hne : h ≠ g)
    (hf : Fresh d₀ s.ppData (h :: π)) : Fresh d₀ s₁.ppData (h :: π) := by
  intro k r q hr hq hsuf
  refine hround.off hat (hf k r q hr hq hsuf) ((hrun.hash_path hk₀).2.mpr hq) ?_ fun hg =>
    hne (cons_suffix_inj hsuf hg)
  rintro rfl
  have := hsuf.length_le
  simp at this

/-- The fold of the only two records of a path makes the call on the second one ready. -/
theorem ready_absorb (hround : Round (· ≠ ·) call π i j g s s₁)
    (hat : LoopAt (· ≠ ·) P π s.ppData (i :: j :: rest)) (hk₀ : Keyed (hashes d₀))
    (hlive : ∀ k r, recAt d₀ k = some r → r.bDelete = false)
    (hrun : Moves (· ≠ ·) [] d₀ s.ppData) (hf : Fresh d₀ s.ppData (g :: π))
    (htwo : ∀ k, AtPath d₀ k (g :: π) → k = i ∨ k = j) :
    Ready d₀ (absorb s.ppData i j) (g :: π) (idAt s.ppData j) := by
  obtain ⟨ri, rj, ⟨hi, rfl, rfl⟩, hj, _, _⟩ := hround.paths hat
  obtain ⟨_, hp'⟩ := hrun.hash_path hk₀
  refine ⟨fun k r hr hq => ?_, fun h k r q hr hq hsuf => ?_⟩
  · have hr' := hf k r _ hr hq List.suffix_rfl
    have hki : i ≠ k := by
      rintro rfl
      obtain rfl : ri = r := by simpa [hi] using hr'
      have := hat.path.unique hat.keyed (hp'.mpr hq)
      simp at this
    refine ⟨_, recAt_absorb_of hr' i j, ?_, by simp [foldRec, hki, hlive k r hr]⟩
    -- the parent of `k` is one of the two
    generalize hx : r.nPid = x at hq
    generalize hy : ri.nHashId :: π = y at hq
    cases hq with
    | root => simp at hy
    | @up m row p hrow hpar =>
      obtain ⟨rm, hm, rfl⟩ := table_inv hrow
      obtain ⟨rm', hm', hkept⟩ := hrun.kept hm
      have hid : rm'.nId = rm.nId := by rw [hkept.1]
      rcases htwo m ⟨rm, hm, hy ▸ .up hrow hpar⟩ with rfl | rfl
      · simp [foldRec, hx, idAt_eq hm', hid]
      · simp [foldRec, hx, idAt_eq hm', hid]
  · have hlen := hsuf.length_le
    refine absorb_off hat.keyed hi hat.path (hf k r q hr hq ((List.suffix_cons _ _).trans hsuf))
      (hp'.mpr hq) ?_ ?_ <;> rintro rfl <;> simp at hlen

/-! ### At least one is left when no group overlaps -/

/-- Every marked record has a live namesake below the same parent. -/
def Mated (d : PPData) : Prop := ∀ k r, recAt d k = some r → r.bDelete = true →
  ∃ m r', recAt d m = some r' ∧ r'.nPid = r.nPid ∧ r'.nHashId = r.nHashId ∧ r'.bDelete = false

/-- Folding into a live record leaves everybody mated. -/
theorem Mated.absorb {d : PPData} (h : Mated d) {i j : ℕ} {ri rj : FavoriteLineData}
    (hi : recAt d i = some ri) (hj : recAt d j = some rj) (hne : i ≠ j) (hpid : rj.nPid = ri.nPid)
    (hhash : rj.nHashId = ri.nHashId) (hl : rj.bDelete = false) : Mated (absorb d i j) := by
  intro k r' hr' hdel
  rw [recAt_absorb, Option.map_eq_some_iff] at hr'
  obtain ⟨r, hr, rfl⟩ := hr'
  -- the mate of `k` is `j` whenever it would be `i`
  have hmate : ∃ m rm, i ≠ m ∧ recAt d m = some rm ∧ rm.nPid = r.nPid ∧
      rm.nHashId = r.nHashId ∧ rm.bDelete = false := by
    cases hd : r.bDelete with
    | false =>
      obtain rfl : i = k := by simpa [foldRec, hd] using hdel
      obtain rfl : ri = r := by simpa [hi] using hr
      exact ⟨j, rj, hne, hj, hpid, hhash, hl⟩
    | true =>
      obtain ⟨m, rm, hm, hmp, hmh, hml⟩ := h k r hr hd
      rcases eq_or_ne i m with rfl | him
      · obtain rfl : ri = rm := by simpa [hi] using hm
        exact ⟨j, rj, hne, hj, hpid.trans hmp, hhash.trans hmh, hl⟩
      · exact ⟨m, rm, him, hm, hmp, hmh, hml⟩
  obtain ⟨m, rm, him, hm, hmp, hmh, hml⟩ := hmate
  exact ⟨m, _, recAt_absorb_of hm i j, by simp [foldRec, hmp], hmh, by simp [foldRec, him, hml]⟩

/-- No two records share a path one step below `π`. -/
def Narrow (d : PPData) (π : List ℕ) : Prop := ∀ h, ¬ Shared d (h :: π)

theorem AtPath.unique {d : PPData} (hk : Keyed (hashes d)) {k : ℕ} {p q : List ℕ}
    (hp : AtPath d k p) (hq : AtPath d k q) : p = q := by
  obtain ⟨r, hr, hp⟩ := hp
  obtain ⟨r', hr', hq⟩ := hq
  obtain rfl : r = r' := by simpa [hr] using hr'
  exact hp.unique hk hq

theorem AtPath.hashAt_eq {d : PPData} (hk : Keyed (hashes d)) {k h : ℕ} {p : List ℕ}
    (hp : AtPath d k (h :: p)) : hashAt d k = h := by
  obtain ⟨r, hr, hp⟩ := hp
  obtain ⟨q, hq, _⟩ := hp.inv hk (table_some hr)
  obtain ⟨rfl, rfl⟩ : h = r.nHashId ∧ p = q := by simpa using hq
  exact Merge.hashAt_eq hr

theorem Doubled.cons {d : PPData} {p : List ℕ} {h : ℕ} (hd : Doubled d p)
    (hs : Shared d (h :: p)) : Doubled d (h :: p) := by
  intro q hq hsuf
  rcases List.suffix_cons_iff.mp hsuf with rfl | hsuf
  · exact hs
  · exact hd q hq hsuf

/-- The path of a slot of the loop, in the array of the start. -/
theorem LoopAt.atPath {d : PPData} {vec : List ℕ} (hat : LoopAt (· ≠ ·) P π d vec)
    (hk₀ : Keyed (hashes d₀)) (hrun : Moves (· ≠ ·) [] d₀ d) {k : ℕ} (hmem : k ∈ vec)
    (hh : hashAt d k = g) : AtPath d₀ k (g :: π) := by
  obtain ⟨r, hr, hp⟩ := hat.child k hmem
  obtain ⟨r₀, hr₀, hkept⟩ := hrun.kept_inv hr
  have hid : r₀.nId = r.nId := by rw [hkept.1]
  obtain rfl : r.nHashId = g := by rw [Merge.hashAt_eq hr] at hh; exact_mod_cast hh
  exact ⟨r₀, hr₀, hid ▸ (hrun.hash_path hk₀).2.mp (.up (table_some hr) (hp ▸ hat.path))⟩

theorem Round.atPath (hround : Round (· ≠ ·) call π i j g s s₁)
    (hat : LoopAt (· ≠ ·) P π s.ppData (i :: j :: rest)) (hk₀ : Keyed (hashes d₀))
    (hrun : Moves (· ≠ ·) [] d₀ s.ppData) :
    AtPath d₀ i (g :: π) ∧ AtPath d₀ j (g :: π) := by
  obtain ⟨ri, rj, ⟨hi, _, hig⟩, hj, _, hjg⟩ := hround.paths hat
  exact ⟨hat.atPath hk₀ hrun (by simp) (by rw [hashAt_eq hi, hig]),
    hat.atPath hk₀ hrun (by simp) (by rw [hashAt_eq hj, hjg])⟩

/-- What the loop keeps on the first call on a path: the slots still to come are live, and a name
    that comes twice and will be merged further down has all its slots still to come. -/
structure Coming (d₀ : PPData) (π : List ℕ) (d : PPData) (vec : List ℕ) : Prop where
  live : ∀ k ∈ vec, ∀ r, recAt d k = some r → r.bDelete = false
  fresh : ∀ g, ¬ Narrow d₀ (g :: π) → ∀ a ∈ vec, ∀ b ∈ vec, a ≠ b → AtPath d₀ a (g :: π) →
    AtPath d₀ b (g :: π) → Fresh d₀ d (g :: π) ∧ ∀ k, AtPath d₀ k (g :: π) → k ∈ vec

theorem Ready.hangs {d : PPData} (hready : Ready d₀ d π P) (hk₀ : Keyed (hashes d₀)) {k : ℕ}
    (hkp : AtPath d₀ k (g :: π)) : ∃ r, recAt d k = some r ∧ r.nPid = P := by
  obtain ⟨r₀, hr₀, hpath⟩ := hkp
  obtain ⟨q, hq, hpar⟩ := hpath.inv hk₀ (table_some hr₀)
  obtain ⟨_, rfl⟩ : g = r₀.nHashId ∧ π = q := by simpa using hq
  obtain ⟨r', hr', hp', _⟩ := hready.child k r₀ hr₀ hpar
  exact ⟨r', hr', hp'⟩

/-- The loop of a ready call starts with everything still to come. -/
theorem Ready.coming {d : PPData} (hready : Ready d₀ d π P) (hk₀ : Keyed (hashes d₀))
    (hrun : Moves (· ≠ ·) [] d₀ d) (hP : PathOf (hashes d) P π) {vec : List ℕ}
    (hvec : ∀ k, k ∈ vec ↔ ∃ r, recAt d k = some r ∧ r.nPid = P) : Coming d₀ π d vec := by
  obtain ⟨hk, hp⟩ := hrun.hash_path hk₀
  refine ⟨fun k hmem r hr => ?_, fun g _ _ _ _ _ _ _ _ => ⟨hready.deep g, fun k hkp => ?_⟩⟩
  · obtain ⟨r₁, hr₁, hp₁⟩ := (hvec k).mp hmem
    obtain rfl : r = r₁ := by simpa [hr] using hr₁
    obtain ⟨r₀, hr₀, _, hpar⟩ := hrun.parent_path hk₀ hr (hp₁ ▸ hp.mp hP)
    obtain ⟨r', hr', _, hl⟩ := hready.child k r₀ hr₀ hpar
    obtain rfl : r = r' := by simpa [hr] using hr'
    exact hl
  · exact (hvec k).mpr (hready.hangs hk₀ hkp)

theorem Coming.skip (hc : Coming d₀ π s.ppData (i :: j :: rest))
    (hat : LoopAt (· ≠ ·) P π s.ppData (i :: j :: rest)) (hk₀ : Keyed (hashes d₀))
    (hrun : Moves (· ≠ ·) [] d₀ s.ppData) (hne : hashAt s.ppData i ≠ hashAt s.ppData j) :
    Coming d₀ π s.ppData (j :: rest) := by
  refine ⟨fun k hk => hc.live k (List.mem_cons_of_mem _ hk), fun g hn a ha b hb hab hpa hpb => ?_⟩
  obtain ⟨hf, hall⟩ := hc.fresh g hn a (List.mem_cons_of_mem _ ha) b (List.mem_cons_of_mem _ hb)
    hab hpa hpb
  refine ⟨hf, fun k hk => (List.mem_cons.mp (hall k hk)).resolve_left ?_⟩
  rintro rfl
  refine hat.passed hne a ha ?_
  rw [hrun.hashAt_eq.1, hpa.hashAt_eq hk₀, hk.hashAt_eq hk₀]

theorem Coming.round (hc : Coming d₀ π s.ppData (i :: j :: rest))
    (hat : LoopAt (· ≠ ·) P π s.ppData (i :: j :: rest)) (hk₀ : Keyed (hashes d₀))
    (hrun : Moves (· ≠ ·) [] d₀ s.ppData) (hround : Round (· ≠ ·) call π i j g s s₁)
    (hno : ¬ Narrow d₀ (g :: π) → ¬ Tripled d₀ (g :: π)) :
    Coming d₀ π s₁.ppData (j :: rest) := by
  obtain ⟨hpi, hpj⟩ := hround.atPath hat hk₀ hrun
  have hnot : ∀ k ∈ j :: rest, i ≠ k := by
    rintro k hk rfl
    exact (List.pairwise_cons.mp hat.order).1 i hk rfl rfl
  refine ⟨fun k hk r' hr' => ?_, fun h hn a ha b hb hab hpa hpb => ?_⟩
  · -- only `i` was marked among the children of `P`
    obtain ⟨r, hr, rfl⟩ := hat.child k (List.mem_cons_of_mem _ hk)
    obtain ⟨hka, hpa⟩ := hround.below.hash_path hat.keyed
    obtain ⟨r₁, hr₁, hp₁⟩ := hround.below.pid hat.keyed hr hat.path le_rfl
    have := hround.inner.off hka hr₁ (hp₁ ▸ hpa.mpr hat.path) (by
      intro hsuf
      have := hsuf.length_le
      simp at this)
    obtain rfl : r₁ = r' := by simpa [this] using hr'
    obtain rfl := Option.some.inj ((recAt_absorb_of hr i j).symm.trans hr₁)
    simp [foldRec, hnot k hk, hc.live k (List.mem_cons_of_mem _ hk) r hr]
  · obtain ⟨hf, hall⟩ := hc.fresh h hn a (List.mem_cons_of_mem _ ha) b (List.mem_cons_of_mem _ hb)
      hab hpa hpb
    have hne : h ≠ g := by
      rintro rfl
      exact hno hn ⟨i, a, b, ⟨hnot a ha, hnot b hb, hab⟩, hpi, hpa, hpb⟩
    refine ⟨hround.fresh hat hk₀ hrun hne hf, fun k hk =>
      (List.mem_cons.mp (hall k hk)).resolve_left ?_⟩
    rintro rfl
    have := hk.unique hk₀ hpi
    simp_all

/-- Either nothing is merged below `π`, or the call is the first one there. -/
def CallMated (d₀ : PPData) (call : St → ℤ → Option St) : Prop :=
  ∀ s P s' π, Moves (· ≠ ·) [] d₀ s.ppData → PathOf (hashes d₀) P π → Doubled d₀ π →
    Narrow d₀ π ∨ Ready d₀ s.ppData π P → Mated s.ppData → call s P = some s' → Mated s'.ppData

theorem loop_mated (hmove : CallMoves (· ≠ ·) call) (hcall : CallMated d₀ call)
    (hk₀ : Keyed (hashes d₀)) (hlive : ∀ k r, recAt d₀ k = some r → r.bDelete = false)
    (hno : ¬ Overlap d₀) (hd : Doubled d₀ π) (vec : List ℕ) (s s' : St)
    (hat : LoopAt (· ≠ ·) P π s.ppData vec) (h : mergeLoop call s vec = some s') :
    Moves (· ≠ ·) [] d₀ s.ppData → Narrow d₀ π ∨ Coming d₀ π s.ppData vec → Mated s.ppData →
      Mated s'.ppData := by
  refine loop_rule hmove (motive := fun s vec => Moves (· ≠ ·) [] d₀ s.ppData →
    Narrow d₀ π ∨ Coming d₀ π s.ppData vec → Mated s.ppData → Mated s'.ppData)
    (fun _ _ _ _ _ hm => hm) ?_ ?_ vec s hat h
  · rintro s i j rest hat hne _ ih hrun hc hm
    exact ih hrun (hc.imp id fun hc => hc.skip hat hk₀ hrun hne) hm
  · rintro s s₁ i j g rest hat hround _ ih hrun hc hm
    obtain ⟨hpi, hpj⟩ := hround.atPath hat hk₀ hrun
    have hshared : Shared d₀ (g :: π) := ⟨i, j, hround.order, hpi, hpj⟩
    have hnt : ¬ Narrow d₀ (g :: π) → ¬ Tripled d₀ (g :: π) := by
      intro hn ht
      simp only [Narrow, not_forall, not_not] at hn
      obtain ⟨h, hs⟩ := hn
      exact hno ⟨g :: π, h, hd.cons hshared, ht, hs⟩
    rcases hc with hn | hc
    · exact absurd hshared (hn g)
    obtain ⟨ri, rj, ⟨hi, hip, hig⟩, hj, hjp, hjg⟩ := hround.paths hat
    have hma : Mated (absorb s.ppData i j) := hm.absorb hi hj hround.order (hjp.trans hip.symm)
      (hjg.trans hig.symm) (hc.live j (by simp) rj hj)
    have hra : Moves (· ≠ ·) [] d₀ (absorb s.ppData i j) :=
      hrun.tail (hround.below.mono (List.nil_suffix))
    refine ih (hrun.trans (hround.moves.mono List.nil_suffix))
      (.inr (hc.round hat hk₀ hrun hround hnt)) (hcall ⟨_, s.calls⟩ _ _ _ hra
        ((hrun.hash_path hk₀).2.mp hround.path) (hd.cons hshared) ?_ hma hround.call_eq)
    by_cases hn : Narrow d₀ (g :: π)
    · exact .inl hn
    · obtain ⟨hf, hall⟩ := hc.fresh g hn i (by simp) j (by simp) hround.order hpi hpj
      refine .inr (ready_absorb hround hat hk₀ hlive hrun hf fun k hk => ?_)
      by_contra hne
      simp only [not_or] at hne
      exact hnt hn ⟨i, j, k, ⟨hround.order, Ne.symm hne.1, Ne.symm hne.2⟩, hpi, hpj, hk⟩

theorem merge_mated (σ : St → Sorter ℕ) (hk₀ : Keyed (hashes d₀))
    (hlive : ∀ k r, recAt d₀ k = some r → r.bDelete = false) (hno : ¬ Overlap d₀) :
    ∀ fuel, CallMated d₀ (merge σ fuel)
  | 0 => by intro s P s' π _ _ _ _ _ h; simp [merge] at h
  | fuel + 1 => by
    intro s P s' π hrun hP hd hready hm h
    obtain ⟨hk, hp⟩ := hrun.hash_path hk₀
    simp only [merge] at h
    split at h
    · refine loop_mated (merge_moves (orders_ne σ) fuel) (merge_mated σ hk₀ hlive hno fuel) hk₀
        hlive hno hd _ ⟨s.ppData, P :: s.calls⟩ s'
        (loopAt_collect (orders_ne σ) hk (hp.mpr hP)) h hrun (hready.imp id fun hr => ?_) hm
      exact hr.coming hk₀ hrun (hp.mpr hP)
        (mem_sort_collect (s := ⟨s.ppData, P :: s.calls⟩) hk)
    · simp only [Option.some.injEq] at h
      rw [← h]
      exact hm

end Calls

end UrlTraveler.Merge
