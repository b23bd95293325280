import UrlTraveler.Schemes.Cycles

/-! Tables of rows that point to their parent row by key.

    A table gives every slot at most one row: a key, the key of its parent, and a label. Key 0 is
    the root and belongs to no row. The *path* of a key is the list of labels met on the way up to
    the root; keys on a parent cycle, or below a key that no row has, have no path.

        slot 0: ⟨1, 0, a⟩        path of 1:  [a]
        slot 1: ⟨2, 1, b⟩        path of 2:  [b, a]

    In a keyed table (keys nonzero and distinct) a key has at most one path. Hanging all children
    of one row below a sibling with the same label (`rehang`) changes no path: that is the fact
    behind every merge of namesakes. A table whose rows all have a path has no parent cycle, and
    the converse holds for finite tables whose parent keys all exist. -/

namespace UrlTraveler.Forest
open Cycles

variable {ι κ β : Type}

/-- One row: its key, its parent's key, its label. -/
structure Row (κ β : Type) where
  key : κ
  par : κ
  lab : β

abbrev Table (ι κ β : Type) := ι → Option (Row κ β)

/-- `y` is the parent key of a row with key `x`. -/
def Parent (T : Table ι κ β) (x y : κ) : Prop := ∃ i r, T i = some r ∧ r.key = x ∧ r.par = y

/-- No key is its own ancestor. -/
def Acyclic (T : Table ι κ β) : Prop := NoCycle (Parent T)

/-- Keys that decrease on the way up rule out cycles. -/
theorem acyclic_of_lt [Preorder κ] {T : Table ι κ β} (h : ∀ i r, T i = some r → r.par < r.key) :
    Acyclic T := by
  refine noCycle_of_lt ?_
  rintro _ _ ⟨i, r, hi, rfl, rfl⟩
  exact h i r hi

variable [Zero κ]

/-- The labels from a key up to the root. -/
inductive PathOf (T : Table ι κ β) : κ → List β → Prop
  | root : PathOf T 0 []
  | up {i : ι} {r : Row κ β} {p : List β} :
      T i = some r → PathOf T r.par p → PathOf T r.key (r.lab :: p)

/-- Keys are nonzero and distinct. -/
structure Keyed (T : Table ι κ β) : Prop where
  nonzero : ∀ {i r}, T i = some r → r.key ≠ 0
  inj : ∀ {i j r r'}, T i = some r → T j = some r' → r.key = r'.key → i = j

/-- Every parent key is the root or the key of a row. -/
def Closed (T : Table ι κ β) : Prop :=
  ∀ i r, T i = some r → r.par = 0 ∨ ∃ j r', T j = some r' ∧ r'.key = r.par

/-- Every child of `a` becomes a child of `b`. -/
def rehang [DecidableEq κ] (T : Table ι κ β) (a b : κ) : Table ι κ β := fun k =>
  (T k).map fun r => { r with par := if r.par = a then b else r.par }

variable {T : Table ι κ β}

/-! ### Paths of a keyed table -/

/-- The path of a row's key starts at that row. -/
theorem PathOf.inv (hk : Keyed T) {i : ι} {r : Row κ β} {p : List β} (hi : T i = some r)
    (h : PathOf T r.key p) : ∃ q, p = r.lab :: q ∧ PathOf T r.par q := by
  generalize hx : r.key = x at h
  cases h with
  | root => exact absurd hx (hk.nonzero hi)
  | @up j r' q hj hq =>
    obtain rfl := hk.inj hi hj hx
    obtain rfl : r = r' := by simpa [hi] using hj
    exact ⟨q, rfl, hq⟩

theorem PathOf.zero (hk : Keyed T) {p : List β} (h : PathOf T 0 p) : p = [] := by
  generalize hx : (0 : κ) = x at h
  cases h with
  | root => rfl
  | up hi _ => exact absurd hx.symm (hk.nonzero hi)

theorem PathOf.unique (hk : Keyed T) {x : κ} {p q : List β} (hp : PathOf T x p)
    (hq : PathOf T x q) : p = q := by
  induction hp generalizing q with
  | root => exact (hq.zero hk).symm
  | up hi _ ih =>
    obtain ⟨q', rfl, hq'⟩ := hq.inv hk hi
    rw [ih hq']

/-- A path visits every slot at most once, so it is no longer than the table. -/
theorem PathOf.length_le (hk : Keyed T) {S : Finset ι} (hS : ∀ i r, T i = some r → i ∈ S)
    {x : κ} {p : List β} (hp : PathOf T x p) : p.length ≤ S.card := by
  classical
  suffices h : ∃ is : List ι, is.length = p.length ∧ is.Nodup ∧ ∀ i ∈ is, ∃ r q,
      T i = some r ∧ PathOf T r.key q ∧ q.length ≤ p.length by
    obtain ⟨is, hlen, hnd, his⟩ := h
    rw [← hlen, ← List.toFinset_card_of_nodup hnd]
    refine Finset.card_le_card fun i hi => ?_
    obtain ⟨r, _, hr, _⟩ := his i (List.mem_toFinset.mp hi)
    exact hS i r hr
  induction hp with
  | root => exact ⟨[], rfl, List.nodup_nil, by simp⟩
  | @up j r p hj hp ih =>
    obtain ⟨is, hlen, hnd, his⟩ := ih
    -- the new slot has a longer path than all slots above it
    have hnew : j ∉ is := by
      intro hmem
      obtain ⟨r', q, hr', hq, hle⟩ := his j hmem
      obtain rfl : r = r' := by simpa [hj] using hr'
      have := hq.unique hk (hp.up hj)
      simp [this] at hle
    refine ⟨j :: is, by simp [hlen], List.nodup_cons.mpr ⟨hnew, hnd⟩, ?_⟩
    intro i hi
    rcases List.mem_cons.mp hi with rfl | hi
    · exact ⟨r, _, hj, hp.up hj, le_rfl⟩
    · obtain ⟨r', q, hr', hq, hle⟩ := his i hi
      exact ⟨r', q, hr', hq, by simp; omega⟩

omit [Zero κ] in
/-- Two paths that go through `π` and meet further down go the same way from there. -/
theorem cons_suffix_inj {x y : β} {π q : List β} (hx : x :: π <:+ q) (hy : y :: π <:+ q) :
    x = y := by
  have := (List.suffix_of_suffix_length_le hx hy (by simp)).eq_of_length (by simp)
  simpa using this

omit [Zero κ] in
theorem exists_cons_suffix {q p : List β} (hs : q <:+ p) (hne : q ≠ p) : ∃ x, x :: q <:+ p := by
  obtain ⟨t, rfl⟩ := hs
  rcases List.eq_nil_or_concat t with rfl | ⟨t', x, rfl⟩
  · simp at hne
  · exact ⟨x, t', by simp⟩

omit [Zero κ] in
theorem not_cons_suffix {x : β} {π : List β} : ¬ x :: π <:+ π := by
  intro h
  simpa using h.length_le

/-! ### Paths and cycles -/

/-- Rooted rows lie on no cycle: the path gets shorter on the way up. -/
theorem acyclic_of_rooted (hk : Keyed T)
    (h : ∀ i r, T i = some r → ∃ p, PathOf T r.key p) : Acyclic T := by
  have hstep : ∀ {x y}, Relation.TransGen (Parent T) x y →
      ∃ p q, PathOf T x p ∧ PathOf T y q ∧ q.length < p.length := by
    intro x y hxy
    induction hxy with
    | single hxy =>
      obtain ⟨i, r, hi, rfl, rfl⟩ := hxy
      obtain ⟨p, hp⟩ := h i r hi
      obtain ⟨q, rfl, hq⟩ := hp.inv hk hi
      exact ⟨_, q, hp, hq, by simp⟩
    | tail _ hyz ih =>
      obtain ⟨p, q, hp, hq, hlt⟩ := ih
      obtain ⟨i, r, hi, rfl, rfl⟩ := hyz
      obtain ⟨q', rfl, hq'⟩ := hq.inv hk hi
      exact ⟨p, q', hp, hq', by simp at hlt; omega⟩
  intro x hx
  obtain ⟨p, q, hp, hq, hlt⟩ := hstep hx
  rw [hp.unique hk hq] at hlt
  exact lt_irrefl _ hlt

/-- In a finite acyclic table whose parents exist, every row is rooted. -/
theorem rooted_of_acyclic {S : Finset ι} (hS : ∀ i r, T i = some r → i ∈ S) (hc : Closed T)
    (ha : Acyclic T) {i : ι} {r : Row κ β} (hi : T i = some r) : ∃ p, PathOf T r.key p := by
  have hfin : (⋃ i ∈ S, {y | ∃ r, T i = some r ∧ r.par = y}).Finite := by
    refine S.finite_toSet.biUnion fun i _ => Set.Subsingleton.finite ?_
    rintro _ ⟨r, hr, rfl⟩ _ ⟨r', hr', rfl⟩
    obtain rfl : r = r' := by simpa [hr] using hr'
    rfl
  refine ha.ascend hfin ?_ (motive := fun x => ∀ i r, T i = some r → r.key = x →
    ∃ p, PathOf T x p) ?_ r.key i r hi rfl
  · rintro _ _ ⟨i, r, hr, rfl, rfl⟩
    exact Set.mem_biUnion (hS i r hr) ⟨r, hr, rfl⟩
  · rintro _ ih i r hi rfl
    rcases hc i r hi with h0 | ⟨j, r', hj, hr'⟩
    · exact ⟨[r.lab], .up hi (h0 ▸ .root)⟩
    · obtain ⟨p, hp⟩ := ih r'.key ⟨i, r, hi, rfl, hr'.symm⟩ j r' hj rfl
      exact ⟨_, .up hi (hr' ▸ hp)⟩

/-! ### Hanging the children of a namesake elsewhere -/

section Rehang
variable [DecidableEq κ]

omit [Zero κ] in
theorem rehang_some {a b : κ} {k : ι} {r : Row κ β} (h : T k = some r) :
    rehang T a b k = some { r with par := if r.par = a then b else r.par } := by
  simp [rehang, h]

omit [Zero κ] in
theorem rehang_inv {a b : κ} {k : ι} {r' : Row κ β} (h : rehang T a b k = some r') :
    ∃ r, T k = some r ∧ r' = { r with par := if r.par = a then b else r.par } := by
  simp only [rehang, Option.map_eq_some_iff] at h
  obtain ⟨r, hr, rfl⟩ := h
  exact ⟨r, hr, rfl⟩

theorem keyed_rehang (hk : Keyed T) (a b : κ) : Keyed (rehang T a b) where
  nonzero h := by obtain ⟨r, hr, rfl⟩ := rehang_inv h; exact (hk.nonzero hr : r.key ≠ 0)
  inj h h' he := by
    obtain ⟨r, hr, rfl⟩ := rehang_inv h
    obtain ⟨r', hr', rfl⟩ := rehang_inv h'
    exact hk.inj hr hr' he

/-- Moving the children of `i` to a sibling `j` with the same label keeps every path. -/
theorem pathOf_rehang (hk : Keyed T) {i j : ι} {ri rj : Row κ β} (hi : T i = some ri)
    (hj : T j = some rj) (hpar : ri.par = rj.par) (hlab : ri.lab = rj.lab) {x : κ} {p : List β} :
    PathOf (rehang T ri.key rj.key) x p ↔ PathOf T x p := by
  have hk' := keyed_rehang hk ri.key rj.key
  constructor
  · intro h
    induction h with
    | root => exact .root
    | up hrow _ ih =>
      obtain ⟨r, hr, rfl⟩ := rehang_inv hrow
      change PathOf T r.key (r.lab :: _)
      refine PathOf.up hr ?_
      by_cases hra : r.par = ri.key
      · -- the path now goes through `j`; it went through `i`
        simp only [hra, if_true] at ih
        obtain ⟨q, rfl, hq⟩ := ih.inv hk hj
        rw [hra, ← hlab]
        exact .up hi (hpar ▸ hq)
      · simpa [hra] using ih
  · intro h
    induction h with
    | root => exact .root
    | @up k r p hr _ ih =>
      have hstep := PathOf.up (rehang_some (a := ri.key) (b := rj.key) hr) (p := p)
      refine hstep ?_
      by_cases hra : r.par = ri.key
      · simp only [hra, if_true]
        rw [hra] at ih
        obtain ⟨q, hp, hq⟩ := ih.inv hk' (rehang_some hi)
        rw [hp]
        simp only [hpar] at hq
        simpa [hlab] using PathOf.up (rehang_some (a := ri.key) (b := rj.key) hj) hq
      · simpa [hra] using ih

end Rehang

end UrlTraveler.Forest
