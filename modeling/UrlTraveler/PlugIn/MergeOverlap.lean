import UrlTraveler.PlugIn.MergeTies
import UrlTraveler.PlugIn.MergeStable

/-! The tie order that makes `Merge` delete a whole group, and when there is one.

    On an overlap of least depth all calls above it are made once. The loop that folds its three
    folders starts with the parents of two namesakes, so the first call there marks one of the two;
    every later call finds a marked namesake, sorts it last, and folds all others into it:

        tainted    the group below the folder just called on has a marked record
        lost       all of its records are marked

    `oneLeft_iff` puts this together with `merge_atMost` and `merge_mated`. -/

namespace UrlTraveler.Merge
open Sorting Forest Relation

def markKey (d : PPData) (k : ℕ) : ℤ := if (recAt d k).any (·.bDelete) then 1 else 0

def frontKey (a b k : ℕ) : ℤ := if k = a ∨ k = b then 0 else 1

/-- Among equal hashes: `a` and `b` first, marked slots last. -/
def adversary (a b : ℕ) (s : St) : Sorter ℕ where
  sort key l := insertion.sort key
    (insertion.sort (markKey s.ppData) (insertion.sort (frontKey a b) l))
  perm key l := (insertion.perm key _).trans
    ((insertion.perm (markKey s.ppData) _).trans (insertion.perm (frontKey a b) l))
  sorted key _ := insertion.sorted key _

theorem adversary_order (a b : ℕ) (s : St) (key : ℕ → ℤ) (l : List ℕ) :
    ((adversary a b s).sort key l).Pairwise fun i j => key i = key j →
      markKey s.ppData i ≤ markKey s.ppData j ∧
        (markKey s.ppData i = markKey s.ppData j → frontKey a b i ≤ frontKey a b j) :=
  insertion_stable.ties ((insertion.sorted (markKey s.ppData) _).and
    (insertion_stable.ties (insertion.sorted (frontKey a b) l)))

theorem markKey_eq {d : PPData} {k : ℕ} {r : FavoriteLineData} (h : recAt d k = some r) :
    markKey d k = if r.bDelete then 1 else 0 := by simp [markKey, h]

/-- Below `P` some record named `h` is marked. -/
def Tainted (d : PPData) (P : ℤ) (h : ℕ) : Prop :=
  ∃ k r, recAt d k = some r ∧ r.nPid = P ∧ r.nHashId = h ∧ r.bDelete = true

/-- Below `P` all records named `h` are marked. -/
def Lost (d : PPData) (P : ℤ) (h : ℕ) : Prop :=
  Tainted d P h ∧ ∀ k r, recAt d k = some r → r.nPid = P → r.nHashId = h → r.bDelete = true

/-! ### A tainted group is lost -/

variable {a b : ℕ} {P : ℤ} {π : List ℕ} {s s₁ s' : St} {h : ℕ}

/-- A marked record sorts last, and all others are folded. -/
theorem merge_lost {fuel : ℕ} (hk : Keyed (hashes s.ppData)) (hP : PathOf (hashes s.ppData) P π)
    (hm : merge (adversary a b) fuel s P = some s') (ht : Tainted s.ppData P h) :
    Lost s'.ppData P h := by
  cases fuel with
  | zero => simp [merge] at hm
  | succ fuel =>
    have hmoves := merge_moves (orders_ne _) (fuel + 1) s P s' π hk hP hm
    obtain ⟨m, rm, hrm, hpm, rfl, hdm⟩ := ht
    obtain ⟨rm', hrm', hkept⟩ := hmoves.kept hrm
    obtain ⟨rm'', hrm'', hpm'⟩ := (hmoves.child_iff hk hP m).mpr ⟨rm, hrm, hpm⟩
    obtain rfl : rm' = rm'' := by simpa [hrm'] using hrm''
    refine ⟨⟨m, rm', hrm', hpm', by rw [hkept.1], hkept.2 hdm⟩, fun k r' hr' hp' hh => ?_⟩
    obtain ⟨r, hr, hkept'⟩ := hmoves.kept_inv hr'
    obtain ⟨r₁, hr₁, hp⟩ := (hmoves.child_iff hk hP k).mp ⟨r', hr', hp'⟩
    obtain rfl : r = r₁ := by simpa [hr] using hr₁
    have hhr : r.nHashId = rm.nHashId := by rw [← hh, hkept'.1]
    cases hd : r.bDelete with
    | true => exact hkept'.2 hd
    | false =>
      have hne : k ≠ m := by rintro rfl; simp_all
      simp only [merge] at hm
      split at hm
      case isFalse hlen =>
        exact absurd (eq_of_length_le_one (Nat.not_lt.mp hlen)
          (mem_collect.mpr ⟨r, hr, hk.nonzero (table_some hr), hp⟩)
          (mem_collect.mpr ⟨rm, hrm, hk.nonzero (table_some hrm), hpm⟩)) hne
      case isTrue =>
        obtain ⟨_, _, _, _, h5⟩ := loop_atMost (merge_moves (orders_ne _) fuel)
          (merge_atMost _ fuel) _ ⟨s.ppData, P :: s.calls⟩ s' (loopAt_collect (orders_ne _) hk hP) hm
        have hmem : ∀ {k r}, recAt s.ppData k = some r → r.nPid = P → k ∈
            (adversary a b ⟨s.ppData, P :: s.calls⟩).sort (hashAt s.ppData) (collect s.ppData P) :=
          fun hr hp => (mem_sort_collect (s := ⟨s.ppData, P :: s.calls⟩) hk _).mpr ⟨_, hr, hp⟩
        have hhash : hashAt s.ppData k = hashAt s.ppData m := by
          rw [hashAt_eq hr, hashAt_eq hrm, hhr]
        -- `k` is live and `m` is not, so `k` comes first
        rcases pairwise_either (h5.and (adversary_order a b ⟨s.ppData, P :: s.calls⟩ _ _))
          (hmem hr hp) (hmem hrm hpm) hne with hkm | hmk
        · obtain ⟨r₂, hr₂, hd₂⟩ := hkm.1 hhash
          obtain rfl : r' = r₂ := by simpa [hr'] using hr₂
          exact hd₂
        · have := (hmk.2 hhash.symm).1
          rw [markKey_eq hr, markKey_eq hrm, hd, hdm] at this
          simp at this

/-! ### A lost group stays lost -/

variable {call : St → ℤ → Option St}

/-- A group whose slots are not touched. -/
theorem Lost.off {Q : ℤ} {q : List ℕ} (hl : Lost s.ppData Q h) (hk : Keyed (hashes s.ppData))
    (hQ : PathOf (hashes s.ppData) Q q) {ok : ℕ → ℕ → Prop}
    (hm : Moves ok π s.ppData s'.ppData) (hoff : ∀ k r, recAt s.ppData k = some r →
      PathOf (hashes s.ppData) r.nPid q → recAt s'.ppData k = some r) : Lost s'.ppData Q h := by
  obtain ⟨⟨k, r, hr, rfl, hh, hd⟩, hall⟩ := hl
  refine ⟨⟨k, r, hoff k r hr hQ, rfl, hh, hd⟩, fun k' r' hr' hp' hh' => ?_⟩
  obtain ⟨r₀, hr₀, _, hpar⟩ := hm.parent_path hk hr' (hp' ▸ hQ)
  obtain rfl : r₀ = r' := by simpa [hr'] using (hoff k' r₀ hr₀ hpar).symm
  exact hall k' r₀ hr₀ hp' hh'

/-- Rounds on other hashes than `g` do not touch what lies below `g :: π`. -/
theorem loop_keeps_lost (hmove : CallMoves (· ≠ ·) call) {Q : ℤ} {g : ℕ} {q : List ℕ}
    (hg : g :: π <:+ q) (vec : List ℕ) (s : St)
    (hat : LoopAt (· ≠ ·) P π s.ppData vec) (h' : mergeLoop call s vec = some s')
    (htail : ∀ k ∈ vec.tail, hashAt s.ppData k ≠ g) (hQ : PathOf (hashes s.ppData) Q q)
    (hl : Lost s.ppData Q h) : Lost s'.ppData Q h := by
  refine loop_rule hmove (motive := fun s vec => (∀ k ∈ vec.tail, hashAt s.ppData k ≠ g) →
    PathOf (hashes s.ppData) Q q → Lost s.ppData Q h → Lost s'.ppData Q h)
    (fun _ _ _ _ _ hl => hl) ?_ ?_ vec s hat h' htail hQ hl
  · rintro s i j rest hat hne _ ih htail hQ hl
    exact ih (fun k hk => htail k (List.mem_cons_of_mem _ hk)) hQ hl
  · rintro s s₁ i j g' rest hat hround _ ih htail hQ hl
    obtain ⟨ri, rj, _, hj, _, rfl⟩ := hround.paths hat
    have hne : rj.nHashId ≠ g := by
      rintro rfl
      exact htail j (by simp) (hashAt_eq hj)
    have hm := hround.moves
    refine ih ?_ ((hm.hash_path hat.keyed).2.mpr hQ) (hl.off hat.keyed hQ hm fun k r hr hq => ?_)
    · rw [hm.hashAt_eq.1]
      exact fun k hk => htail k (List.mem_cons_of_mem _ hk)
    · refine hround.off hat hr hq ?_ fun hsuf => hne (cons_suffix_inj hsuf hg)
      rintro rfl
      simpa using hg.length_le

/-- The loop stands at `j`, whose group of `h`s is lost, or will be by the next round. -/
structure Losing (s : St) (π : List ℕ) (g h : ℕ) (j : ℕ) (rest : List ℕ) : Prop where
  path : PathOf (hashes s.ppData) (idAt s.ppData j) (g :: π)
  calls : idAt s.ppData j ∈ s.calls
  tainted : Tainted s.ppData (idAt s.ppData j) h
  soon : Lost s.ppData (idAt s.ppData j) h ∨ ∃ k ∈ rest, hashAt s.ppData k = hashAt s.ppData j

theorem loop_lost {fuel g : ℕ} (vec : List ℕ) (s : St) (hat : LoopAt (· ≠ ·) P π s.ppData vec)
    (h' : mergeLoop (merge (adversary a b) fuel) s vec = some s') :
    ∀ j rest, vec = j :: rest → Losing s π g h j rest →
      ∃ Q ∈ s'.calls, PathOf (hashes s'.ppData) Q (g :: π) ∧ Lost s'.ppData Q h := by
  have hmove := merge_moves (orders_ne (adversary a b)) fuel
  refine loop_rule hmove (motive := fun s vec => ∀ j rest, vec = j :: rest →
    Losing s π g h j rest → ∃ Q ∈ s'.calls, PathOf (hashes s'.ppData) Q (g :: π) ∧
      Lost s'.ppData Q h) ?_ ?_ ?_ vec s hat h'
  · rintro _ hlen _ j rest rfl hl
    obtain rfl : rest = [] := by simpa using hlen
    exact ⟨_, hl.calls, hl.path, hl.soon.resolve_right (by simp)⟩
  · rintro s i j rest hat hne hrest _ _ _ ⟨rfl, rfl⟩ hl
    have hlost := hl.soon.resolve_right fun ⟨k, hk, he⟩ => hat.passed hne k hk he
    obtain ⟨ri, hri, _⟩ := hat.child i (by simp)
    obtain ⟨q, hq, _⟩ := (idAt_eq hri ▸ hl.path).inv hat.keyed (table_some hri)
    obtain ⟨rfl, rfl⟩ : g = ri.nHashId ∧ π = q := by simpa using hq
    obtain ⟨_, _, hgrow, hm, _⟩ := loop_atMost hmove (merge_atMost _ fuel) _ _ _ hat.tail hrest
    refine ⟨_, hgrow _ hl.calls, (hm.hash_path hat.keyed).2.mpr hl.path,
      loop_keeps_lost hmove List.suffix_rfl _ _ hat.tail hrest (fun k hk => ?_) hl.path hlost⟩
    rw [← hashAt_eq hri]
    exact hat.passed hne k (List.mem_cons_of_mem _ hk)
  · rintro s s₁ i j g' rest hat hround _ ih _ _ ⟨rfl, rfl⟩ hl
    obtain ⟨ri, rj, ⟨hri, hpi, rfl⟩, _⟩ := hround.paths hat
    obtain rfl : ri.nHashId = g := by
      have := (idAt_eq hri ▸ hl.path).unique hat.keyed (.up (table_some hri) (hpi ▸ hat.path))
      simpa using this.symm
    obtain ⟨hka, hpa⟩ := hround.below.hash_path hat.keyed
    have hcall := merge_atMost _ fuel ⟨_, s.calls⟩ _ _ _ hka (hpa.mpr hround.path) hround.call_eq
    have hid : idAt s₁.ppData j = idAt s.ppData j := congrFun hround.moves.hashAt_eq.2 j
    have hlost : Lost s₁.ppData (idAt s.ppData j) h := by
      refine merge_lost hka (hpa.mpr hround.path) hround.call_eq ?_
      obtain ⟨k, r, hr, hp, hh, hd⟩ := hl.tainted
      exact ⟨k, _, recAt_absorb_of hr i j, by simp [foldRec, hp], hh, by simp [foldRec, hd]⟩
    exact ih j rest rfl ⟨hid ▸ (hround.moves.hash_path hat.keyed).2.mpr hround.path,
      hid ▸ hcall.self, hid ▸ hlost.1, .inl (hid ▸ hlost)⟩

/-! ### The way down to an overlap -/

/-- Slot `x` holds a record named `h` that hangs below slot `a`, whose path is `p`. -/
def Under (d : PPData) (p : List ℕ) (h a x : ℕ) : Prop := ∃ rx ra, recAt d x = some rx ∧
  rx.nHashId = h ∧ recAt d a = some ra ∧ rx.nPid = ra.nId ∧ PathOf (hashes d) ra.nId p

/-- An overlap of least depth: `x` and `y` are the namesakes, `a` and `b` hold them. -/
structure Target (d₀ : PPData) (p : List ℕ) (h a b x y : ℕ) : Prop where
  keyed : Keyed (hashes d₀)
  live : ∀ k r, recAt d₀ k = some r → r.bDelete = false
  doubled : Doubled d₀ p
  tripled : Tripled d₀ p
  least : ∀ q, q ≠ [] → q <:+ p → q ≠ p → ¬ Tripled d₀ q
  ne : x ≠ y
  left : Under d₀ p h a x
  right : Under d₀ p h b y

theorem exists_under {d : PPData} (hk : Keyed (hashes d)) {x : ℕ} {p : List ℕ} (hp : p ≠ [])
    (hx : AtPath d x (h :: p)) : ∃ a, Under d p h a x := by
  obtain ⟨rx, hrx, hpath⟩ := hx
  obtain ⟨q, hq, hpar⟩ := hpath.inv hk (table_some hrx)
  obtain ⟨rfl, rfl⟩ : h = rx.nHashId ∧ p = q := by simpa using hq
  generalize hx : rx.nPid = y at hpar
  cases hpar with
  | root => exact absurd rfl hp
  | up hrow hup =>
    obtain ⟨ra, hra, rfl⟩ := table_inv hrow
    exact ⟨_, rx, ra, hrx, rfl, hra, hx, .up hrow hup⟩

theorem Tripled.third {d : PPData} {p : List ℕ} (ht : Tripled d p) (i j : ℕ) :
    ∃ m, AtPath d m p ∧ m ≠ i ∧ m ≠ j := by
  obtain ⟨m₁, m₂, m₃, hne, h₁, h₂, h₃⟩ := ht
  by_contra hno
  have hno : ∀ m, AtPath d m p → m = i ∨ m = j := by
    intro m hm
    by_contra hne
    exact hno ⟨m, hm, not_or.mp hne⟩
  have := hno m₁ h₁
  have := hno m₂ h₂
  have := hno m₃ h₃
  omega

/-- Every overlap has one of least depth. -/
theorem Overlap.target {d : PPData} (ho : Overlap d) (hk : Keyed (hashes d))
    (hlive : ∀ k r, recAt d k = some r → r.bDelete = false) :
    ∃ p h a b x y, p ≠ [] ∧ Target d p h a b x y := by
  classical
  have hex : ∃ n p h, p.length = n ∧ Doubled d p ∧ Tripled d p ∧ Shared d (h :: p) := by
    obtain ⟨p, h, hp⟩ := ho
    exact ⟨_, p, h, rfl, hp⟩
  obtain ⟨p, h, hn, hd, ht, x, y, hne, hx, hy⟩ := Nat.find_spec hex
  have hp : p ≠ [] := by
    rintro rfl
    obtain ⟨k, _, _, _, ⟨r, hr, hk0⟩, _⟩ := ht
    obtain ⟨q, hq, _⟩ := hk0.inv hk (table_some hr)
    simp at hq
  obtain ⟨a, ha⟩ := exists_under hk hp hx
  obtain ⟨b, hb⟩ := exists_under hk hp hy
  refine ⟨p, h, a, b, x, y, hp, hk, hlive, hd, ht, fun q hq hsuf hqp htq => ?_, hne, ha, hb⟩
  -- the next folder on the way down is there twice, so `q` is an overlap too
  obtain ⟨g, hg⟩ := exists_cons_suffix hsuf hqp
  refine Nat.find_min hex (m := q.length) ?_ ⟨q, g, rfl, fun q' h' hs => ?_, htq, ?_⟩
  · rw [← hn]; simpa using hg.length_le
  · exact hd q' h' (hs.trans hsuf)
  · exact hd (g :: q) (by simp) hg

/-- The loop has not reached the group `g` yet, and the parents `a` and `b` sort first in theirs. -/
structure Ahead (d₀ d : PPData) (π : List ℕ) (g a b : ℕ) (vec : List ℕ) : Prop where
  fresh : Fresh d₀ d (g :: π)
  all : ∀ k, AtPath d₀ k (g :: π) → k ∈ vec
  front : vec.Pairwise fun i j => hashAt d i = hashAt d j → frontKey a b i ≤ frontKey a b j

variable {d₀ : PPData} {i j g : ℕ} {rest : List ℕ}

theorem Ahead.skip (ha : Ahead d₀ s.ppData π g a b (i :: j :: rest))
    (hat : LoopAt (· ≠ ·) P π s.ppData (i :: j :: rest)) (hk₀ : Keyed (hashes d₀))
    (hrun : Moves (· ≠ ·) [] d₀ s.ppData) (hs : Shared d₀ (g :: π))
    (hne : hashAt s.ppData i ≠ hashAt s.ppData j) : Ahead d₀ s.ppData π g a b (j :: rest) := by
  refine ⟨ha.fresh, fun k hk => (List.mem_cons.mp (ha.all k hk)).resolve_left ?_,
    (List.pairwise_cons.mp ha.front).2⟩
  rintro rfl
  -- one of the two that share the path comes after `k`
  obtain ⟨m, hmk, hm⟩ : ∃ m, m ≠ k ∧ AtPath d₀ m (g :: π) := by
    obtain ⟨m, m', hmm, hm, hm'⟩ := hs
    rcases eq_or_ne m k with rfl | hmk
    · exact ⟨m', hmm.symm, hm'⟩
    · exact ⟨m, hmk, hm⟩
  refine hat.passed hne m ((List.mem_cons.mp (ha.all m hm)).resolve_left hmk) ?_
  rw [hrun.hashAt_eq.1, hm.hashAt_eq hk₀, hk.hashAt_eq hk₀]

theorem Ahead.round {call : St → ℤ → Option St} {g' : ℕ}
    (ha : Ahead d₀ s.ppData π g a b (i :: j :: rest))
    (hat : LoopAt (· ≠ ·) P π s.ppData (i :: j :: rest)) (hk₀ : Keyed (hashes d₀))
    (hrun : Moves (· ≠ ·) [] d₀ s.ppData) (hround : Round (· ≠ ·) call π i j g' s s₁)
    (hne : g ≠ g') : Ahead d₀ s₁.ppData π g a b (j :: rest) := by
  refine ⟨hround.fresh hat hk₀ hrun hne ha.fresh, fun k hk =>
    (List.mem_cons.mp (ha.all k hk)).resolve_left ?_, ?_⟩
  · rintro rfl
    have := hk.unique hk₀ (hround.atPath hat hk₀ hrun).1
    simp_all
  · rw [hround.moves.hashAt_eq.1]
    exact (List.pairwise_cons.mp ha.front).2

/-- `a` and `b` come first in their group. -/
theorem Ahead.first (ha : Ahead d₀ s.ppData π g a b (i :: j :: rest)) (hij : i ≠ j)
    (hnd : (i :: j :: rest).Nodup) (hh : ∀ k, AtPath d₀ k (g :: π) → hashAt s.ppData k = g)
    (hi : AtPath d₀ i (g :: π)) (hj : AtPath d₀ j (g :: π)) {k : ℕ} (hk : AtPath d₀ k (g :: π))
    (hab : k = a ∨ k = b) : k = i ∨ k = j := by
  simp only [List.nodup_cons, List.mem_cons, not_or] at hnd
  have hmem := ha.all k hk
  simp only [List.mem_cons] at hmem
  rcases hmem with rfl | rfl | hmem
  · exact .inl rfl
  · exact .inr rfl
  · have hfront := List.pairwise_cons.mp ha.front
    have h₁ := hfront.1 k (by simp [hmem]) (by rw [hh i hi, hh k hk])
    have h₂ := (List.pairwise_cons.mp hfront.2).1 k hmem (by rw [hh j hj, hh k hk])
    have hki : k ≠ i := by rintro rfl; exact hnd.1.2 hmem
    have hkj : k ≠ j := by rintro rfl; exact hnd.2.1 hmem
    simp only [frontKey, if_pos hab] at h₁ h₂
    split at h₁
    case isFalse => omega
    case isTrue hi' =>
      split at h₂
      case isFalse => omega
      case isTrue hj' => omega

/-- The first round of the overlapping group leaves a marked record behind. -/
theorem Round.tainted {fuel x y : ℕ}
    (hround : Round (· ≠ ·) (merge (adversary a b) fuel) π i j g s s₁)
    (hat : LoopAt (· ≠ ·) P π s.ppData (i :: j :: rest)) (htgt : Target d₀ (g :: π) h a b x y)
    (hrun : Moves (· ≠ ·) [] d₀ s.ppData) (hf : Fresh d₀ s.ppData (g :: π))
    (hfirst : ∀ k, AtPath d₀ k (g :: π) → k = a ∨ k = b → k = i ∨ k = j) :
    Tainted s₁.ppData (idAt s.ppData j) h ∧ idAt s.ppData j ∈ s₁.calls := by
  obtain ⟨hka, hpa⟩ := hround.below.hash_path hat.keyed
  have hPj := hpa.mpr hround.path
  have hcall := merge_atMost _ fuel ⟨_, s.calls⟩ _ _ _ hka hPj hround.call_eq
  have hhang : ∀ {c z}, (c = a ∨ c = b) → Under d₀ (g :: π) h c z →
      ∃ r, recAt s₁.ppData z = some r ∧ r.nPid = idAt s.ppData j ∧ r.nHashId = h := by
    rintro c z hc ⟨rz, rc, hz, rfl, hrc, hpid, hpc⟩
    obtain ⟨rc', hrc', hkept⟩ := hrun.kept hrc
    have hid : idAt s.ppData c = rz.nPid := by rw [idAt_eq hrc', hkept.1, hpid]
    have hz' := hf z rz _ hz (hpid ▸ hpc) List.suffix_rfl
    obtain ⟨r, hr, hkept'⟩ := hround.inner.kept (recAt_absorb_of hz' i j)
    obtain ⟨r', hr', hp'⟩ := (hround.inner.child_iff hka hPj z).mpr
      ⟨_, recAt_absorb_of hz' i j, by
        rcases hfirst c ⟨rc, hrc, hpc⟩ hc with rfl | rfl <;> simp [foldRec, hid]⟩
    obtain rfl : r = r' := by simpa [hr] using hr'
    exact ⟨r, hr, hp', by rw [hkept'.1]; rfl⟩
  obtain ⟨rx, hx, hpx, hhx⟩ := hhang (.inl rfl) htgt.left
  obtain ⟨ry, hy, hpy, hhy⟩ := hhang (.inr rfl) htgt.right
  refine ⟨?_, hcall.self⟩
  cases hdx : rx.bDelete with
  | true => exact ⟨x, rx, hx, hpx, hhx, hdx⟩
  | false =>
    cases hdy : ry.bDelete with
    | true => exact ⟨y, ry, hy, hpy, hhy, hdy⟩
    | false =>
      exact absurd (hcall.here x y rx ry hx hy hpx hpy (hhx.trans hhy.symm) hdx hdy) htgt.ne

/-- A ready call on the way down ends with a lost group. -/
def CallLost (d₀ : PPData) (p : List ℕ) (h : ℕ) (call : St → ℤ → Option St) : Prop :=
  ∀ s P s' π, Moves (· ≠ ·) [] d₀ s.ppData → PathOf (hashes d₀) P π → (∃ g, g :: π <:+ p) →
    Ready d₀ s.ppData π P → call s P = some s' →
    ∃ Q ∈ s'.calls, PathOf (hashes d₀) Q p ∧ Lost s'.ppData Q h

theorem loop_callLost {fuel x y : ℕ} {p : List ℕ} (htgt : Target d₀ p h a b x y)
    (hcall : CallLost d₀ p h (merge (adversary a b) fuel)) (hg : g :: π <:+ p) (vec : List ℕ)
    (s : St) (hat : LoopAt (· ≠ ·) P π s.ppData vec)
    (h' : mergeLoop (merge (adversary a b) fuel) s vec = some s') :
    Moves (· ≠ ·) [] d₀ s.ppData → Ahead d₀ s.ppData π g a b vec →
      ∃ Q ∈ s'.calls, PathOf (hashes d₀) Q p ∧ Lost s'.ppData Q h := by
  have hmove := merge_moves (orders_ne (adversary a b)) fuel
  have hshared : Shared d₀ (g :: π) := htgt.doubled _ (by simp) hg
  refine loop_rule hmove (motive := fun s vec => Moves (· ≠ ·) [] d₀ s.ppData →
    Ahead d₀ s.ppData π g a b vec → ∃ Q ∈ s'.calls, PathOf (hashes d₀) Q p ∧ Lost s'.ppData Q h)
    ?_ ?_ ?_ vec s hat h'
  · rintro vec hlen _ _ ha
    obtain ⟨m, m', hne, hm, hm'⟩ := hshared
    exact absurd (eq_of_length_le_one hlen (ha.all m hm) (ha.all m' hm')) hne
  · rintro s i j rest hat hne _ ih hrun ha
    exact ih hrun (ha.skip hat htgt.keyed hrun hshared hne)
  · rintro s s₁ i j g' rest hat hround hrest ih hrun ha
    have hrun₁ : Moves (· ≠ ·) [] d₀ s₁.ppData :=
      hrun.trans (hround.moves.mono List.nil_suffix)
    rcases eq_or_ne g g' with rfl | hne
    case inr => exact ih hrun₁ (ha.round hat htgt.keyed hrun hround hne)
    obtain ⟨hpi, hpj⟩ := hround.atPath hat htgt.keyed hrun
    have hnd : (i :: j :: rest).Nodup := hat.order.imp fun h he => h (by rw [he]) he
    have hhash : ∀ k, AtPath d₀ k (g :: π) → hashAt s.ppData k = g := fun k hk => by
      rw [hrun.hashAt_eq.1, hk.hashAt_eq htgt.keyed]
    obtain ⟨_, _, hgrow, hm, _⟩ := loop_atMost hmove (merge_atMost _ fuel) _ _ _
      (hat.tail.moves hround.moves) hrest
    have hp₁ := hrun₁.hash_path htgt.keyed
    rcases eq_or_ne (g :: π) p with rfl | hgp
    · -- the overlap itself: one of its records gets marked, and a third folder comes behind
      obtain ⟨ht, hc⟩ := hround.tainted hat htgt hrun ha.fresh fun k hk hab =>
        ha.first hround.order hnd hhash hpi hpj hk hab
      have hid : idAt s₁.ppData j = idAt s.ppData j := congrFun hround.moves.hashAt_eq.2 j
      obtain ⟨m, hmp, hmi, hmj⟩ := htgt.tripled.third i j
      have hmr : m ∈ rest := by
        have := ha.all m hmp
        simp_all
      obtain ⟨Q, hQ, hQp, hlost⟩ := loop_lost _ _ (hat.tail.moves hround.moves) hrest j rest rfl
        ⟨hid ▸ (hround.moves.hash_path hat.keyed).2.mpr hround.path, hid ▸ hc, hid ▸ ht,
          .inr ⟨m, hmr, by rw [hround.moves.hashAt_eq.1, hhash m hmp, hhash j hpj]⟩⟩
      exact ⟨Q, hQ, hp₁.2.mp ((hm.hash_path hp₁.1).2.mp hQp), hlost⟩
    · -- on the way there are exactly two: the call below them is ready
      have htwo : ∀ k, AtPath d₀ k (g :: π) → k = i ∨ k = j := by
        intro k hk
        by_contra hne
        simp only [not_or] at hne
        exact htgt.least _ (by simp) hg hgp
          ⟨i, j, k, ⟨hround.order, Ne.symm hne.1, Ne.symm hne.2⟩, hpi, hpj, hk⟩
      obtain ⟨Q, hQ, hQp, hlost⟩ := hcall ⟨absorb s.ppData i j, s.calls⟩ _ s₁ (g :: π)
        (hrun.tail (hround.below.mono List.nil_suffix))
        ((hrun.hash_path htgt.keyed).2.mp hround.path) (exists_cons_suffix hg hgp)
        (ready_absorb hround hat htgt.keyed htgt.live hrun ha.fresh htwo) hround.call_eq
      refine ⟨Q, hgrow Q hQ, hQp, loop_keeps_lost hmove hg _ _ (hat.tail.moves hround.moves) hrest
        (fun k hk he => ?_) (hp₁.2.mpr hQp) hlost⟩
      rw [hround.moves.hashAt_eq.1] at he
      have hmem : k ∈ rest := hk
      have := htwo k (hat.atPath htgt.keyed hrun (by simp [hmem]) he)
      simp only [List.nodup_cons, List.mem_cons, not_or] at hnd
      rcases this with rfl | rfl
      · exact hnd.1.2 hmem
      · exact hnd.2.1 hmem

theorem merge_callLost {x y : ℕ} {p : List ℕ} (htgt : Target d₀ p h a b x y) :
    ∀ fuel, CallLost d₀ p h (merge (adversary a b) fuel)
  | 0 => by intro s P s' π _ _ _ _ h; simp [merge] at h
  | fuel + 1 => by
    rintro s P s' π hrun hP ⟨g, hg⟩ hready hm
    obtain ⟨hk, hp⟩ := hrun.hash_path htgt.keyed
    have hmem := mem_sort_collect (σ := adversary a b) (P := P) (s := ⟨s.ppData, P :: s.calls⟩) hk
    have hc := hready.coming htgt.keyed hrun (hp.mpr hP) hmem
    simp only [merge] at hm
    split at hm
    case isFalse hlen =>
      obtain ⟨m, m', hne, hpm, hpm'⟩ := htgt.doubled _ (by simp) hg
      have hcol : ∀ {k}, AtPath d₀ k (g :: π) → k ∈ collect s.ppData P := fun hkp =>
        ((adversary a b ⟨s.ppData, P :: s.calls⟩).perm _ _).mem_iff.mp
          ((hmem _).mpr (hready.hangs htgt.keyed hkp))
      exact absurd (eq_of_length_le_one (Nat.not_lt.mp hlen) (hcol hpm) (hcol hpm')) hne
    case isTrue =>
      refine loop_callLost htgt (merge_callLost htgt fuel) hg _ ⟨s.ppData, P :: s.calls⟩
        (loopAt_collect (orders_ne _) hk (hp.mpr hP)) hm hrun ⟨hready.deep g, fun k hkp =>
          (hmem k).mpr (hready.hangs htgt.keyed hkp), ?_⟩
      have hmark : ∀ k ∈ (adversary a b ⟨s.ppData, P :: s.calls⟩).sort (hashAt s.ppData)
          (collect s.ppData P), markKey s.ppData k = 0 := by
        intro k hkm
        obtain ⟨r, hr, _⟩ := (hmem k).mp hkm
        simp [markKey_eq hr, hc.live k hkm r hr]
      refine (adversary_order a b ⟨s.ppData, P :: s.calls⟩ _ _).imp_of_mem fun hi hj hij he => ?_
      exact (hij he).2 ((hmark _ hi).trans (hmark _ hj).symm)

/-! ### Exactly one is left, unless there is an overlap -/

theorem ready_root {d : PPData}
    (hlive : ∀ k r, recAt d k = some r → r.bDelete = false) : Ready d d [] 0 := by
  refine ⟨fun k r hr hp => ⟨r, hr, ?_, hlive k r hr⟩, fun h k r q hr _ _ => hr⟩
  generalize hx : r.nPid = x at hp
  cases hp with
  | root => rfl

/-- ONE LEFT: whatever the tie order, `Merge` ends and leaves exactly one live record of every
    group below the parents it was called on, precisely when no group overlaps. -/
theorem oneLeft_iff (d : PPData) (hk : Keyed (hashes d))
    (hlive : ∀ k r, recAt d k = some r → r.bDelete = false) :
    (∀ σ, ∃ s', (∀ fuel, d.length < fuel → merge σ fuel ⟨d, []⟩ 0 = some s') ∧ OneLeft s') ↔
      ¬ Overlap d := by
  constructor
  · intro hall ho
    obtain ⟨p, h, a, b, x, y, hp, htgt⟩ := ho.target hk hlive
    obtain ⟨s', hs', hone⟩ := hall (adversary a b)
    obtain ⟨Q, hQ, _, ⟨k, r, hr, hpid, hh, _⟩, hlost⟩ := merge_callLost htgt _ ⟨d, []⟩ 0 s' [] .refl
      .root (exists_cons_suffix List.nil_suffix hp.symm) (ready_root hlive)
      (hs' (d.length + 1) (by omega))
    obtain ⟨m, ⟨rm, hrm, hpm, hhm, hd⟩, _⟩ := hone Q hQ h ⟨k, r, hr, hpid, hh⟩
    simp [hlost m rm hrm hpm hhm] at hd
  · intro hno σ
    obtain ⟨s', hs', hfuel⟩ := merge_terminates σ hk
    refine ⟨s', hfuel, fun P hP h ⟨k, r, hr, hpid, hh⟩ => ?_⟩
    have hcalls := (merge_atMost σ _ ⟨d, []⟩ 0 s' [] hk .root hs').calls P hP
    have hmost : AtMost s'.ppData P := hcalls.resolve_left (by simp)
    have hmated : Mated s'.ppData := merge_mated σ hk hlive hno _ ⟨d, []⟩ 0 s' [] .refl .root
      (fun q hq hs => absurd (List.suffix_nil.mp hs) hq) (.inr (ready_root hlive))
      (fun k r hr hd => by simp [hlive k r hr] at hd) hs'
    have hex : ∃ m rm, recAt s'.ppData m = some rm ∧ rm.nPid = P ∧ rm.nHashId = h ∧
        rm.bDelete = false := by
      cases hd : r.bDelete with
      | false => exact ⟨k, r, hr, hpid, hh, hd⟩
      | true =>
        obtain ⟨m, rm, hrm, hpm, hhm, hl⟩ := hmated k r hr hd
        exact ⟨m, rm, hrm, hpm.trans hpid, hhm.trans hh, hl⟩
    obtain ⟨m, rm, hrm, hpm, hhm, hl⟩ := hex
    refine ⟨m, ⟨rm, hrm, hpm, hhm, hl⟩, ?_⟩
    rintro m' ⟨rm', hrm', hpm', hhm', hl'⟩
    exact hmost m' m rm' rm hrm' hrm hpm' hpm (hhm'.trans hhm.symm) hl' hl

/-- Two folders of one name with a bookmark each: folded once, so no overlap. -/
def twoNamesakes : List FavoriteLineData :=
  [{ nId := 1, szTitle := ['n'], bFolder := true, nHashId := 5 },
   { nId := 2, szTitle := ['n'], bFolder := true, nHashId := 5 },
   { nId := 3, szTitle := ['u'], nPid := 1, nHashId := 9 },
   { nId := 4, szTitle := ['u'], nPid := 2, nHashId := 9 }]

theorem twoNamesakes_isForest : IsForest (twoNamesakes.map some) :=
  isForest_of_lt (by decide) (by decide)

theorem twoNamesakes_not_overlap : ¬ Overlap (twoNamesakes.map some) := by
  rintro ⟨p, h, _, ⟨a, b, c, hne, ha, hb, hc⟩, _⟩
  cases p with
  | nil =>
    obtain ⟨r, hr, hp⟩ := ha
    obtain ⟨_, hq, _⟩ := hp.inv twoNamesakes_isForest.keyed (table_some hr)
    simp at hq
  | cons g p =>
    -- no hash is there three times
    have hlt : ∀ {k}, AtPath (twoNamesakes.map some) k (g :: p) → k < 4 := fun ⟨_, hr, _⟩ =>
      recAt_lt hr
    have hhash : ∀ {k}, AtPath (twoNamesakes.map some) k (g :: p) →
        hashAt (twoNamesakes.map some) k = g := AtPath.hashAt_eq twoNamesakes_isForest.keyed
    have hab := (hhash ha).trans (hhash hb).symm
    have hac := (hhash ha).trans (hhash hc).symm
    have htable : ∀ a b c : Fin 4, (a.val ≠ b ∧ a.val ≠ c ∧ b.val ≠ c) →
        hashAt (twoNamesakes.map some) a = hashAt (twoNamesakes.map some) b →
        hashAt (twoNamesakes.map some) a ≠ hashAt (twoNamesakes.map some) c := by decide
    exact htable ⟨a, hlt ha⟩ ⟨b, hlt hb⟩ ⟨c, hlt hc⟩ hne hab hac

theorem oneLeft_twoNamesakes : IsForest (twoNamesakes.map some) ∧ ∀ σ, ∃ s', (∀ fuel, 4 < fuel →
    merge σ fuel ⟨twoNamesakes.map some, []⟩ 0 = some s') ∧ OneLeft s' :=
  ⟨twoNamesakes_isForest, (oneLeft_iff (twoNamesakes.map some) twoNamesakes_isForest.keyed
    twoNamesakes_isForest.live).mpr twoNamesakes_not_overlap⟩

/-- Three folders of one name, a bookmark of one name in each of the first two. -/
def overlapping : List FavoriteLineData :=
  [{ nId := 1, szTitle := ['n'], bFolder := true, nHashId := 5 },
   { nId := 2, szTitle := ['n'], bFolder := true, nHashId := 5 },
   { nId := 3, szTitle := ['n'], bFolder := true, nHashId := 5 },
   { nId := 4, szTitle := ['u'], nPid := 1, nHashId := 9 },
   { nId := 5, szTitle := ['u'], nPid := 2, nHashId := 9 }]

/-- Both bookmarks end below the third folder, and both are marked. -/
theorem merge_deletes_group : IsForest (overlapping.map some) ∧
    ∃ s', (∀ fuel, 5 < fuel → merge (adversary 0 1) fuel ⟨overlapping.map some, []⟩ 0 = some s') ∧
      ¬ OneLeft s' := by
  have hf : IsForest (overlapping.map some) := isForest_of_lt (by decide) (by decide)
  obtain ⟨s', hs', hfuel⟩ := merge_terminates (adversary 0 1) hf.keyed
  have hrun : (mergeAll (adversary 0 1) (overlapping.map some)).any fun s => 3 ∈ s.calls ∧
      (recAt s.ppData 3).any (fun r => r.nPid = 3 ∧ r.nHashId = 9) ∧
      ∀ k < 5, (recAt s.ppData k).all fun r => r.nPid ≠ 3 ∨ r.bDelete := by decide
  simp only [hs', Option.any_some, decide_eq_true_eq] at hrun
  obtain ⟨hcalls, hslot, hall⟩ := hrun
  obtain ⟨r, hr, hgroup⟩ := (Option.any_eq_true _ _).mp hslot
  refine ⟨hf, s', hfuel, fun hone => ?_⟩
  obtain ⟨m, ⟨rm, hrm, hpm, _, hlive⟩, _⟩ := hone 3 hcalls 9 ⟨3, r, hr, by simpa using hgroup⟩
  have hlen : s'.ppData.length = 5 := (mergeAll_moves (orders_ne _) hf.keyed hs').length_eq
  have := hall m (hlen ▸ recAt_lt hrm)
  simp [hrm, hpm, hlive] at this

end UrlTraveler.Merge
