import UrlTraveler.Schemes.Forest

/-! Walking a list of records that point to their parents by key.

    `preorder` lists the records below a key in list order, each one followed by the records below
    it; only inner records are walked into. Seen as a table of its inner records, the list gives
    every key a path, and the paths say what the walk does:

        mem         below a key with path π it meets records whose parent's path ends in π
        nodup       each of them once
        filter      and the children of one parent in list order
        pairwise    a parent comes before its children
        lists       it is the listing of the records that can be reached -/

namespace UrlTraveler.Walk
open Forest

/-- How records point to each other: key, parent key, and which ones can have children. -/
structure Links (α κ : Type) where
  key : α → κ
  par : α → κ
  inner : α → Bool

variable {α κ : Type} {L : Links α κ} {v : List α}

/-- The inner records as a table, labelled by their keys. -/
def rows (L : Links α κ) (v : List α) : Table ℕ κ κ := fun i =>
  (v[i]?).bind fun r => if L.inner r then some ⟨L.key r, L.par r, L.key r⟩ else none

theorem rows_inv {i : ℕ} {row : Row κ κ} (h : rows L v i = some row) :
    ∃ r, v[i]? = some r ∧ L.inner r = true ∧ row = ⟨L.key r, L.par r, L.key r⟩ := by
  obtain ⟨r, hr, h⟩ := Option.bind_eq_some_iff.mp h
  split at h
  · cases h
    exact ⟨r, hr, ‹_›, rfl⟩
  · cases h

theorem rows_some {r : α} (hr : r ∈ v) (hi : L.inner r = true) :
    ∃ i, rows L v i = some ⟨L.key r, L.par r, L.key r⟩ := by
  obtain ⟨i, h⟩ := List.mem_iff_getElem?.mp hr
  exact ⟨i, by simp [rows, h, hi]⟩

variable [Zero κ]

/-- Keys are nonzero and distinct. -/
structure Distinct (L : Links α κ) (v : List α) : Prop where
  nodup : (v.map L.key).Nodup
  nonzero : ∀ r ∈ v, L.key r ≠ 0

theorem Distinct.inj (hv : Distinct L v) {r s : α} (hr : r ∈ v) (hs : s ∈ v)
    (h : L.key r = L.key s) : r = s :=
  List.inj_on_of_nodup_map hv.nodup hr hs h

theorem Distinct.keyed (hv : Distinct L v) : Keyed (rows L v) where
  nonzero h := by
    obtain ⟨r, hr, _, rfl⟩ := rows_inv h
    exact hv.nonzero r (List.mem_of_getElem? hr)
  inj {i j _ _} hi hj he := by
    obtain ⟨r, hr, _, rfl⟩ := rows_inv hi
    obtain ⟨s, hs, _, rfl⟩ := rows_inv hj
    have hlt : i < v.length := (List.getElem?_eq_some_iff.mp hr).1
    refine (List.getElem?_inj hlt hv.nodup.of_map).mp ?_
    rw [hr, hs, hv.inj (List.mem_of_getElem? hr) (List.mem_of_getElem? hs) he]

theorem path_up {r : α} {π : List κ} (hr : r ∈ v) (hi : L.inner r = true)
    (h : PathOf (rows L v) (L.par r) π) : PathOf (rows L v) (L.key r) (L.key r :: π) := by
  obtain ⟨i, hrow⟩ := rows_some hr hi
  exact PathOf.up hrow h

/-- The path of a record's own key is its key on top of its parent's path. -/
theorem path_key (hv : Distinct L v) {r : α} {π : List κ} (hr : r ∈ v)
    (h : PathOf (rows L v) (L.key r) π) :
    ∃ q, π = L.key r :: q ∧ PathOf (rows L v) (L.par r) q := by
  generalize hx : L.key r = x at h
  cases h with
  | root => exact absurd hx (hv.nonzero r hr)
  | up hrow hq =>
    obtain ⟨s, hs, _, rfl⟩ := rows_inv hrow
    rw [hv.inj hr (List.mem_of_getElem? hs) hx]
    exact ⟨_, rfl, hq⟩

theorem path_length_le (hv : Distinct L v) {p : κ} {π : List κ} (h : PathOf (rows L v) p π) :
    π.length ≤ v.length := by
  have hS : ∀ i row, rows L v i = some row → i ∈ Finset.range v.length := by
    intro i row hrow
    obtain ⟨r, hr, _⟩ := rows_inv hrow
    exact Finset.mem_range.mpr (List.getElem?_eq_some_iff.mp hr).1
  simpa using h.length_le hv.keyed hS

/-- With keys for labels, a path tells where it starts. -/
theorem path_inj {p p' : κ} {π : List κ} (h : PathOf (rows L v) p π)
    (h' : PathOf (rows L v) p' π) : p = p' := by
  cases h with
  | root => cases h'; rfl
  | up hrow _ =>
    obtain ⟨r, _, _, rfl⟩ := rows_inv hrow
    generalize hy : L.key r :: _ = π at h'
    cases h' with
    | root => cases hy
    | up hrow' _ =>
      obtain ⟨s, _, _, rfl⟩ := rows_inv hrow'
      exact (List.cons.inj hy).1

/-- The record at which a path leaves its suffix `π`. -/
theorem path_branch {p p' x : κ} {π q : List κ} (hp : PathOf (rows L v) p π)
    (hp' : PathOf (rows L v) p' q) (hx : x :: π <:+ q) :
    ∃ r ∈ v, L.inner r = true ∧ L.key r = x ∧ L.par r = p := by
  induction hp' with
  | root => simp at hx
  | @up i row q hrow hq ih =>
    obtain ⟨r, hr, hi, rfl⟩ := rows_inv hrow
    rcases List.suffix_cons_iff.mp hx with he | hx
    · obtain ⟨rfl, rfl⟩ := List.cons.inj he
      exact ⟨r, List.mem_of_getElem? hr, hi, rfl, path_inj hq hp⟩
    · exact ih hx

/-! ### What the walk meets -/

/-- The records below `p`, each followed by those below it. -/
def preorder [DecidableEq κ] (L : Links α κ) (v : List α) : ℕ → κ → List α
  | 0, _ => []
  | fuel + 1, p => v.flatMap fun r =>
    if L.par r = p then r :: (if L.inner r then preorder L v fuel (L.key r) else []) else []

variable [DecidableEq κ]

theorem mem_preorder {fuel : ℕ} {p : κ} {π : List κ} (hp : PathOf (rows L v) p π) {x : α}
    (hx : x ∈ preorder L v fuel p) : x ∈ v ∧ ∃ q, PathOf (rows L v) (L.par x) q ∧ π <:+ q := by
  induction fuel generalizing p π with
  | zero => cases hx
  | succ fuel ih =>
    obtain ⟨r, hr, hx⟩ := List.mem_flatMap.mp hx
    split at hx
    next hrp =>
      rcases List.mem_cons.mp hx with rfl | hx
      · exact ⟨hr, π, hrp ▸ hp, List.suffix_rfl⟩
      · split at hx
        next hi =>
          obtain ⟨hxv, q, hq, hsuf⟩ := ih (path_up hr hi (hrp ▸ hp)) hx
          exact ⟨hxv, q, hq, (List.suffix_cons _ _).trans hsuf⟩
        next => cases hx
    next => cases hx

/-- What one record of the list contributes. -/
def below (L : Links α κ) (v : List α) (fuel : ℕ) (p : κ) (r : α) : List α :=
  if L.par r = p then r :: (if L.inner r then preorder L v fuel (L.key r) else []) else []

omit [Zero κ] in
theorem preorder_succ (fuel : ℕ) (p : κ) :
    preorder L v (fuel + 1) p = v.flatMap (below L v fuel p) := rfl

/-- A record met in the contribution of `r` is `r`, or has `r` on its path. -/
theorem mem_below {fuel : ℕ} {p : κ} {π : List κ} (hp : PathOf (rows L v) p π) {r x : α}
    (hr : r ∈ v) (hx : x ∈ below L v fuel p r) : L.par r = p ∧ x ∈ v ∧
      ∃ q, PathOf (rows L v) (L.par x) q ∧ (x = r ∧ q = π ∨ L.key r :: π <:+ q) := by
  rw [below] at hx
  split at hx
  next hrp =>
    refine ⟨hrp, ?_⟩
    rcases List.mem_cons.mp hx with rfl | hx
    · exact ⟨hr, π, hrp ▸ hp, .inl ⟨rfl, rfl⟩⟩
    · split at hx
      next hi =>
        obtain ⟨hxv, q, hq, hsuf⟩ := mem_preorder (path_up hr hi (hrp ▸ hp)) hx
        exact ⟨hxv, q, hq, .inr hsuf⟩
      next => cases hx
  next => cases hx

/-- The contributions of two records have nothing in common. -/
theorem below_disjoint (hv : Distinct L v) {fuel : ℕ} {p : κ} {π : List κ}
    (hp : PathOf (rows L v) p π) {r s x : α} (hr : r ∈ v) (hs : s ∈ v)
    (hxr : x ∈ below L v fuel p r) (hxs : x ∈ below L v fuel p s) : r = s := by
  obtain ⟨_, _, q, hq, hxr⟩ := mem_below hp hr hxr
  obtain ⟨_, _, q', hq', hxs⟩ := mem_below hp hs hxs
  obtain rfl := hq.unique hv.keyed hq'
  rcases hxr with ⟨rfl, rfl⟩ | hxr
  · rcases hxs with ⟨rfl, _⟩ | hxs
    · rfl
    · exact absurd hxs not_cons_suffix
  · rcases hxs with ⟨_, rfl⟩ | hxs
    · exact absurd hxr not_cons_suffix
    · exact hv.inj hr hs (cons_suffix_inj hxr hxs)

theorem preorder_nodup (hv : Distinct L v) {fuel : ℕ} {p : κ} {π : List κ}
    (hp : PathOf (rows L v) p π) : (preorder L v fuel p).Nodup := by
  induction fuel generalizing p π with
  | zero => exact List.nodup_nil
  | succ fuel ih =>
    rw [preorder_succ, List.nodup_flatMap]
    constructor
    · intro r hr
      rw [below]
      split
      next hrp =>
        split
        next hi =>
          refine List.nodup_cons.mpr ⟨fun hmem => ?_, ih (path_up hr hi (hrp ▸ hp))⟩
          -- the parent of a record below `r` has `r` on its path
          obtain ⟨_, q, hq, hsuf⟩ := mem_preorder (path_up hr hi (hrp ▸ hp)) hmem
          rw [hq.unique hv.keyed (hrp ▸ hp)] at hsuf
          exact not_cons_suffix hsuf
        next => exact List.nodup_singleton r
      next => exact List.nodup_nil
    · exact hv.nodup.of_map.imp_of_mem fun {r s} hr hs hne x hxr hxs =>
        hne (below_disjoint hv hp hr hs hxr hxs)

theorem flatMap_single {g : α → List α} : ∀ {v : List α} {r : α}, v.Nodup → r ∈ v →
    (∀ s ∈ v, s ≠ r → g s = []) → v.flatMap g = g r
  | [], _, _, hr, _ => by cases hr
  | s :: v, r, hnd, hr, hg => by
    obtain ⟨hs, hnd⟩ := List.nodup_cons.mp hnd
    rw [List.flatMap_cons]
    rcases List.mem_cons.mp hr with rfl | hr
    · have : v.flatMap g = [] := List.flatMap_eq_nil_iff.mpr fun t ht =>
        hg t (List.mem_cons_of_mem _ ht) fun he => hs (he ▸ ht)
      rw [this, List.append_nil]
    · rw [hg s List.mem_cons_self fun he => hs (he ▸ hr), List.nil_append]
      exact flatMap_single hnd hr fun t ht => hg t (List.mem_cons_of_mem _ ht)

theorem flatMap_filter (f : α → Bool) : ∀ v : List α,
    (v.flatMap fun r => if f r then [r] else []) = v.filter f
  | [] => rfl
  | r :: v => by
    rw [List.flatMap_cons, flatMap_filter f v, List.filter_cons]
    split <;> rfl

theorem flatMap_filtered {β : Type} (f : α → Bool) (g : α → List β) (v : List α) :
    (v.filter f).flatMap g = v.flatMap fun r => if f r then g r else [] := by
  rw [← flatMap_filter, List.flatMap_assoc]
  refine List.flatMap_congr fun r _ => ?_
  split <;> simp

/-- The children of one parent are met in list order. -/
theorem preorder_filter (hv : Distinct L v) {fuel : ℕ} {p p' : κ} {π q : List κ}
    (hp : PathOf (rows L v) p π) (hp' : PathOf (rows L v) p' q) (hsuf : π <:+ q)
    (hfuel : v.length < fuel + π.length) :
    (preorder L v fuel p).filter (fun r => L.par r = p') = v.filter fun r => L.par r = p' := by
  induction fuel generalizing p π with
  | zero =>
    have := path_length_le hv hp
    omega
  | succ fuel ih =>
    rw [preorder_succ, List.filter_flatMap]
    rcases eq_or_ne π q with rfl | hne
    · -- the children of `p` itself, and nothing below them
      obtain rfl := path_inj hp hp'
      rw [← flatMap_filter]
      refine List.flatMap_congr fun r hr => ?_
      by_cases hrp : L.par r = p
      · have hsub : (if L.inner r then preorder L v fuel (L.key r) else []).filter
            (fun x => L.par x = p) = [] := by
          rw [List.filter_eq_nil_iff]
          intro x hx hxp
          split at hx
          next hi =>
            obtain ⟨_, q, hq, hsuf⟩ := mem_preorder (path_up hr hi (hrp ▸ hp)) hx
            have hxp : L.par x = p := by simpa using hxp
            rw [hq.unique hv.keyed (hxp ▸ hp)] at hsuf
            exact not_cons_suffix hsuf
          next => cases hx
        simp [below, hrp, hsub]
      · simp [below, hrp]
    · -- everything hangs below the one child on the way to `p'`
      obtain ⟨x, hx⟩ := exists_cons_suffix hsuf hne
      obtain ⟨r₀, hr₀, hi₀, rfl, hpar⟩ := path_branch hp hp' hx
      have hpp : p ≠ p' := fun he => hne (hp.unique hv.keyed (he ▸ hp'))
      rw [flatMap_single hv.nodup.of_map hr₀]
      · have hsub := ih (path_up hr₀ hi₀ (hpar ▸ hp)) hx (by simp only [List.length_cons]; omega)
        simp [below, hpar, hi₀, hpp, hsub]
      · intro r hr hrr
        rw [List.filter_eq_nil_iff]
        intro y hy hyp
        have hyp : L.par y = p' := by simpa using hyp
        obtain ⟨hrp, _, q', hq', hy⟩ := mem_below hp hr hy
        rcases hy with ⟨rfl, _⟩ | hsuf'
        · exact hpp (hrp.symm.trans hyp)
        · rw [hq'.unique hv.keyed (hyp ▸ hp')] at hsuf'
          exact hrr (hv.inj hr hr₀ (cons_suffix_inj hsuf' hx))

/-- Everything that can be reached is met. -/
theorem preorder_complete (hv : Distinct L v) {fuel : ℕ} {p : κ} {π q : List κ} {x : α}
    (hp : PathOf (rows L v) p π) (hx : x ∈ v) (hq : PathOf (rows L v) (L.par x) q) (hsuf : π <:+ q)
    (hfuel : v.length < fuel + π.length) : x ∈ preorder L v fuel p := by
  have hmem : x ∈ v.filter fun r => L.par r = L.par x := List.mem_filter.mpr ⟨hx, by simp⟩
  rw [← preorder_filter hv hp hq hsuf hfuel] at hmem
  exact (List.mem_filter.mp hmem).1

theorem preorder_length_le (hv : Distinct L v) (fuel : ℕ) {p : κ} {π : List κ}
    (hp : PathOf (rows L v) p π) : (preorder L v fuel p).length ≤ v.length := by
  classical
  exact ((preorder_nodup hv hp).subperm fun _ hx => (mem_preorder hp hx).1).length_le

/-- When every record hangs on a path to the root, the walk from the root meets them all. -/
theorem preorder_perm (hv : Distinct L v) (hpath : ∀ x ∈ v, ∃ q, PathOf (rows L v) (L.par x) q)
    {fuel : ℕ} (hfuel : v.length < fuel) : (preorder L v fuel 0).Perm v := by
  refine (List.perm_ext_iff_of_nodup (preorder_nodup hv .root) hv.nodup.of_map).mpr fun x => ?_
  constructor
  · exact fun hx => (mem_preorder .root hx).1
  · intro hx
    obtain ⟨q, hq⟩ := hpath x hx
    exact preorder_complete hv .root hx hq List.nil_suffix (by simpa using hfuel)

/-- A parent comes before its children. -/
theorem preorder_pairwise (hv : Distinct L v) (fuel : ℕ) {p : κ} {π : List κ}
    (hp : PathOf (rows L v) p π) :
    (preorder L v fuel p).Pairwise fun x y => L.key y ≠ L.par x := by
  induction fuel generalizing p π with
  | zero => exact List.Pairwise.nil
  | succ fuel ih =>
    -- the key of a record that is met is not `p`
    have habove : ∀ {y q}, y ∈ v → PathOf (rows L v) (L.par y) q → π <:+ q → L.key y ≠ p := by
      intro y q hy hq hsuf he
      obtain ⟨q', rfl, hq'⟩ := path_key hv hy (he ▸ hp)
      rw [hq.unique hv.keyed hq'] at hsuf
      exact not_cons_suffix hsuf
    rw [preorder_succ, List.pairwise_flatMap]
    refine ⟨fun r hr => ?_, hv.nodup.of_map.imp_of_mem fun {r s} hr hs hne x hx y hy he => ?_⟩
    · rw [below]
      split
      next hrp =>
        split
        next hi =>
          have hr' := path_up hr hi (hrp ▸ hp)
          refine List.pairwise_cons.mpr ⟨fun y hy => ?_, ih hr'⟩
          obtain ⟨hyv, q, hq, hsuf⟩ := mem_preorder hr' hy
          rw [hrp]
          exact habove hyv hq ((List.suffix_cons _ _).trans hsuf)
        next => exact List.pairwise_singleton _ _
      next => exact List.Pairwise.nil
    · obtain ⟨_, _, qx, hqx, hx⟩ := mem_below hp hr hx
      obtain ⟨_, hyv, qy, hqy, hy⟩ := mem_below hp hs hy
      obtain ⟨q, rfl, hq⟩ := path_key hv hyv (he ▸ hqx)
      obtain rfl := hqy.unique hv.keyed hq
      rcases hx with ⟨_, rfl⟩ | hx
      · rcases hy with ⟨_, he⟩ | hy
        · exact absurd (he ▸ List.suffix_rfl) (not_cons_suffix (x := L.key y) (π := qy))
        · exact absurd ((List.suffix_cons _ _).trans hy) not_cons_suffix
      · refine hne (hv.inj hr hs ?_)
        rcases hy with ⟨rfl, rfl⟩ | hy
        · exact cons_suffix_inj hx List.suffix_rfl
        · exact cons_suffix_inj hx (hy.trans (List.suffix_cons _ _))

/-! ### The walk without fuel -/

/-- Reached from `p` by child steps, through inner records. -/
inductive Reached (L : Links α κ) (v : List α) (p : κ) : α → Prop
  | child {r : α} : r ∈ v → L.par r = p → Reached L v p r
  | step {f r : α} : Reached L v p f → L.inner f = true → r ∈ v → L.par r = L.key f →
      Reached L v p r

/-- `l` lists the children of `p` in list order, each followed by the listing of its own key. -/
inductive Lists (L : Links α κ) (v : List α) : κ → List α → Prop
  | mk {p : κ} (sub : α → List α) :
      (∀ r ∈ v, L.par r = p → L.inner r = true → Lists L v (L.key r) (sub r)) →
      Lists L v p ((v.filter fun r => L.par r = p).flatMap fun r =>
        r :: if L.inner r then sub r else [])

omit [Zero κ] [DecidableEq κ] in
theorem Reached.under {p : κ} {r x : α} (hr : r ∈ v) (hp : L.par r = p) (hi : L.inner r = true)
    (hx : Reached L v (L.key r) x) : Reached L v p x := by
  induction hx with
  | child hx hpar => exact .step (.child hr hp) hi hx hpar
  | step _ hf hx hpar ih => exact .step ih hf hx hpar

omit [Zero κ] in
theorem Lists.reached {p : κ} {l : List α} (h : Lists L v p l) {x : α} (hx : x ∈ l) :
    Reached L v p x := by
  induction h with
  | mk sub _ ih =>
    obtain ⟨r, hr, hx⟩ := List.mem_flatMap.mp hx
    obtain ⟨hr, hp⟩ := List.mem_filter.mp hr
    have hp := of_decide_eq_true hp
    rcases List.mem_cons.mp hx with rfl | hx
    · exact .child hr hp
    · split at hx
      next hi => exact .under hr hp hi (ih r hr hp hi hx)
      next => cases hx

omit [Zero κ] in
theorem Lists.child {p : κ} {l : List α} (h : Lists L v p l) {r : α} (hr : r ∈ v)
    (hp : L.par r = p) : r ∈ l := by
  cases h with
  | mk sub _ =>
    exact List.mem_flatMap.mpr ⟨r, List.mem_filter.mpr ⟨hr, by simp [hp]⟩, List.mem_cons_self⟩

omit [Zero κ] in
/-- What is listed is listed with its children. -/
theorem Lists.closed {p : κ} {l : List α} (h : Lists L v p l) {f r : α} (hf : f ∈ l)
    (hi : L.inner f = true) (hr : r ∈ v) (hpar : L.par r = L.key f) : r ∈ l := by
  induction h with
  | mk sub hsub ih =>
    obtain ⟨s, hs, hf⟩ := List.mem_flatMap.mp hf
    have hp := of_decide_eq_true (List.mem_filter.mp hs).2
    have hsv := (List.mem_filter.mp hs).1
    refine List.mem_flatMap.mpr ⟨s, hs, List.mem_cons_of_mem _ ?_⟩
    rcases List.mem_cons.mp hf with rfl | hf
    · rw [if_pos hi]
      exact (hsub f hsv hp hi).child hr hpar
    · split at hf
      next hs' =>
        rw [if_pos hs']
        exact ih s hsv hp hs' hf
      next => cases hf

omit [Zero κ] in
theorem Lists.mem_iff {p : κ} {l : List α} (h : Lists L v p l) (x : α) :
    x ∈ l ↔ Reached L v p x := by
  refine ⟨h.reached, fun hx => ?_⟩
  induction hx with
  | child hx hp => exact h.child hx hp
  | step _ hi hx hp ih => exact h.closed ih hi hx hp

/-- With fuel for the longest path the walk is the listing. -/
theorem preorder_lists (hv : Distinct L v) {fuel : ℕ} {p : κ} {π : List κ}
    (hp : PathOf (rows L v) p π) (hfuel : v.length < fuel + π.length) :
    Lists L v p (preorder L v fuel p) := by
  induction fuel generalizing p π with
  | zero =>
    have := path_length_le hv hp
    omega
  | succ fuel ih =>
    have he : preorder L v (fuel + 1) p = (v.filter fun r => L.par r = p).flatMap fun r =>
        r :: if L.inner r then preorder L v fuel (L.key r) else [] := by
      rw [flatMap_filtered, preorder_succ]
      refine List.flatMap_congr fun r _ => ?_
      simp [below]
    rw [he]
    refine .mk _ fun r hr hrp hi => ?_
    exact ih (path_up hr hi (hrp ▸ hp)) (by simp only [List.length_cons]; omega)

/-! ### Recursions over the records -/

/-- The records below `p`, up to the root of the walk, each given to `f` before those below it;
    `none` is a recursion deeper than the fuel. -/
def visit {σ : Type} (L : Links α κ) (v : List α) (f : σ → α → Option σ) : ℕ → κ → σ → Option σ
  | 0, _, _ => none
  | fuel + 1, p, s => (v.filter fun r => L.par r = p).foldlM
      (fun s r => (f s r).bind (visit L v f fuel (L.key r))) s

/-- A loop over blocks, when `h` does what the loop over one block does. -/
theorem foldlM_flatMap {σ β : Type} {g : α → List β} {f : σ → β → Option σ} {h : σ → α → Option σ} :
    ∀ {l : List α}, (∀ a ∈ l, ∀ s, (g a).foldlM f s = h s a) → ∀ s : σ,
    (l.flatMap g).foldlM f s = l.foldlM h s := by
  intro l
  induction l with
  | nil => exact fun _ _ => rfl
  | cons a l ih =>
    intro hl s
    obtain ⟨ha, hl⟩ := List.forall_mem_cons.mp hl
    rw [List.flatMap_cons, List.foldlM_append, List.foldlM_cons, ha]
    exact bind_congr fun s' => ih hl s'

/-- A recursion that ends is a loop over the preorder. -/
theorem visit_eq {σ : Type} (hv : Distinct L v) (hinner : ∀ r ∈ v, L.inner r = true)
    (f : σ → α → Option σ) {fuel : ℕ} {p : κ} {π : List κ} (hp : PathOf (rows L v) p π)
    (hfuel : v.length < fuel + π.length) (s : σ) :
    visit L v f fuel p s = (preorder L v fuel p).foldlM f s := by
  induction fuel generalizing p π s with
  | zero =>
    have := path_length_le hv hp
    omega
  | succ fuel ih =>
    rw [visit, List.foldlM_filter, preorder_succ]
    refine (foldlM_flatMap (fun r hr s => ?_) s).symm
    by_cases hrp : L.par r = p
    · have hi := hinner r hr
      simp only [below, hrp, hi, decide_true, if_true, List.foldlM_cons]
      refine Option.bind_congr fun s' _ => ?_
      exact (ih (path_up hr hi (hrp ▸ hp)) (by simp only [List.length_cons]; omega) s').symm
    · simp [below, hrp]

end UrlTraveler.Walk
