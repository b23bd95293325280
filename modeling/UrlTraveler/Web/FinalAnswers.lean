import UrlTraveler.Web.Lives

/-! A request gets at most one final answer, where no result is left behind.

    Results are copies, and nobody looks whether their request is still there: a request is answered
    twice where a second result is in the list when the first one is answered. Two results of one
    request come from a write that failed, after which the task goes on (`handle_process`) or the
    context is put in the list once more (`handle_finish`). -/

namespace UrlTraveler.Web
open Maps Runs

/-! ### What is to be shown -/

/-- The request is answered for good: a whole response was parsed, or an error event was pushed. -/
def Entry.final : Entry → Bool
  | .parsed c => c.eReqType ≠ .fragBuffer
  | .event _ => true
  | .pushed _ | .cancelled _ | .deleted _ => false

def AtMostOnce (s : State) : Prop :=
  ∀ n, s.log.countP (fun e => e.nReqSeq = n ∧ e.final) ≤ 1 ∧
    s.log.Pairwise fun d e => d = .deleted n → e.nReqSeq = n → e.replies = false

/-- Taking this result answers the request for good. -/
def HttpContext.settles (uNum : ℕ) (c : HttpContext) : Bool :=
  match c.policy with
  | .successResp => c.last
  | .error _ => uNum ≤ 10
  | .invalidResp | .repeatedReq => false

/-- `ProcessResp` answers this result. -/
def HttpContext.answering (c : HttpContext) : Bool :=
  match c.policy with
  | .successResp | .error _ => true
  | .invalidResp | .repeatedReq => false

/-- The steps that leave nothing behind: when a request is answered for good, no other result in the
    list would answer it again. -/
def Alone (s : State) : Act → Prop
  | .pushUrl _ => s.m_nReqSeq + 1 < 2 ^ 32
  | .getResponse _ =>
    match s.main, s.m_lstResult with
    | .getResponse uNum, c :: rest =>
      c.settles uNum = true → ∀ r ∈ rest, r.nReqSeq = c.nReqSeq → r.answering = false
    | _, _ => True
  | _ => True

instance (s : State) : DecidablePred (Alone s)
  | .pushUrl _ => inferInstanceAs (Decidable (s.m_nReqSeq + 1 < 2 ^ 32))
  | .getResponse ret =>
    match hmain : s.main, hres : s.m_lstResult with
    | .getResponse uNum, c :: rest =>
      decidable_of_iff (c.settles uNum = true →
        ∀ r ∈ rest, r.nReqSeq = c.nReqSeq → r.answering = false) (by rw [Alone, hmain, hres])
    | .getResponse _, [] => .isTrue (by rw [Alone, hmain, hres]; trivial)
    | .idle, _ => .isTrue (by rw [Alone, hmain]; trivial)
    | .sendUrl _, _ => .isTrue (by rw [Alone, hmain]; trivial)
  | .cycleTrigged | .sendUrl _ | .process _ _ _ | .finish _ _ _ | .error _ _ | .cancelTask _ =>
    .isTrue trivial

/-! ### One life -/

def Life.Alone (l : Life) : Move → Prop
  | .take uNum _ _ => ∀ c rest, l.results = c :: rest → c.settles uNum = true →
    ∀ r ∈ rest, r.answering = false
  | _ => True

/-- A result that `handle_finish` or `handle_error` left, other than a failed write or a fragment. -/
def HttpContext.ends (c : HttpContext) : Bool :=
  c.uResult = .failed ∧ c.nErrorCode ≠ errTaskWriteFileError ∨
    c.uResult = .success ∧ c.eReqType ≠ .fragBuffer

/-- The request was answered for good, or deleted. -/
def Life.Done (n : ℕ) (l : Life) : Prop := ∃ e ∈ l.history, e.final = true ∨ e = .deleted n

/-- A task leaves one such result at its end, and after the answer nothing is left to answer. -/
structure Life.Single (n : ℕ) (l : Life) : Prop where
  load : l.running.toNat + l.results.countP (·.ends) ≤ 1
  once : l.history.countP (·.final) ≤ 1
  order : l.history.Pairwise fun d e => d = .deleted n → e.replies = false
  quiet : l.Done n → (∀ r ∈ l.results, r.answering = false) ∧
    (l.context = none ∨ l.running = false ∧ l.results.countP (·.ends) = 0)

section Single
variable {n : ℕ} {l : Life}

theorem ends_of_repeated {c : HttpContext} (h : c.policy = .repeatedReq) : c.ends = true := by
  rw [HttpContext.policy] at h
  split_ifs at h with _ hfailed hcode
  simp [HttpContext.ends, hfailed, hcode]

theorem ends_of_success {c : HttpContext} (h : c.policy = .successResp)
    (htype : c.eReqType ≠ .fragBuffer) : c.ends = true := by
  have hsuccess : c.uResult = .success := by
    rw [HttpContext.policy] at h
    split_ifs at h with _ hfailed
    cases hres : c.uResult with
    | success => rfl
    | failed => exact absurd hres hfailed
  simp [HttpContext.ends, hsuccess, htype]

theorem ends_onProcess (taskinfo : TaskInfo) (written : Bool) (c : HttpContext) :
    (c.onProcess taskinfo written).2.countP (·.ends) = 0 := by
  rw [HttpContext.onProcess]
  dsimp only [HttpContext.report]
  cases c.eReqType <;> cases written <;> simp [HttpContext.ends, HttpContext.writeFailed]

theorem ends_onFinish (taskinfo : TaskInfo) (written : Bool) (c : HttpContext) :
    (c.onFinish taskinfo written).2.countP (·.ends) ≤ 1 := by
  rw [HttpContext.onFinish]
  dsimp only [HttpContext.report]
  cases c.eReqType <;> cases written <;> simp [HttpContext.ends, HttpContext.writeFailed]

theorem Life.Single.stop (hl : l.Single n) : l.stop.Single n where
  load := by
    have hload := hl.load
    simp only [Life.stop, Bool.toNat_false]
    omega
  once := hl.once
  order := hl.order
  quiet := by
    intro hdone
    obtain ⟨hres, hctx | ⟨_, hends⟩⟩ := hl.quiet hdone
    · exact ⟨hres, .inl hctx⟩
    · exact ⟨hres, .inr ⟨rfl, hends⟩⟩

theorem Life.Single.not_done (hl : l.Single n) (hrun : l.running = true) {c : HttpContext}
    (hc : l.context = some c) : ¬ l.Done n := by
  intro hdone
  rcases (hl.quiet hdone).2 with hnone | ⟨hstop, _⟩
  · rw [hc] at hnone
    cases hnone
  · rw [hrun] at hstop
    cases hstop

/-- While a task runs, only failed writes and fragments are in the list. -/
theorem Life.Single.running_ends (hl : l.Single n) (hrun : l.running = true) :
    l.results.countP (·.ends) = 0 := by
  have hload := hl.load
  rw [hrun, Bool.toNat_true] at hload
  omega

theorem Life.Single.callback (hl : l.Single n) (hrun : l.running = true)
    {body : HttpContext → HttpContext × List HttpContext}
    (hout : ∀ c, (body c).2.countP (·.ends) = 0) : (l.callback body).Single n := by
  rw [Life.callback]
  split
  next => exact hl
  next c hc =>
    refine ⟨?_, hl.once, hl.order, fun hdone => absurd hdone (hl.not_done hrun hc)⟩
    simp only [List.countP_append, hout, Nat.add_zero]
    exact hl.load

theorem Life.Single.ended (hl : l.Single n) (hrun : l.running = true)
    {body : HttpContext → HttpContext × List HttpContext}
    (hout : ∀ c, (body c).2.countP (·.ends) ≤ 1) : (l.callback body).stop.Single n := by
  rw [Life.callback]
  split
  next => exact hl.stop
  next c hc =>
    refine ⟨?_, hl.once, hl.order, fun hdone => absurd hdone (hl.not_done hrun hc)⟩
    have hzero := hl.running_ends hrun
    have hone := hout c
    simp only [Life.stop, Bool.toNat_false, List.countP_append]
    omega

/-- The first final answer, and what follows it in the same round. -/
theorem Life.Single.append (hl : l.Single n) (hdone : ¬ l.Done n) (es : List Entry)
    (honce : es.countP (·.final) ≤ 1)
    (horder : es.Pairwise fun d e => d = .deleted n → e.replies = false) :
    (l.history ++ es).countP (·.final) ≤ 1 ∧
      (l.history ++ es).Pairwise fun d e => d = .deleted n → e.replies = false := by
  constructor
  · have hzero : l.history.countP (·.final) = 0 :=
      List.countP_eq_zero.mpr fun e he hfinal => hdone ⟨e, he, .inl hfinal⟩
    rw [List.countP_append, hzero, Nat.zero_add]
    exact honce
  · refine List.pairwise_append.mpr ⟨hl.order, horder, fun d hd e _ hdel => ?_⟩
    exact absurd ⟨d, hd, .inr hdel⟩ hdone

theorem Life.Single.tail (hl : l.Single n) {c : HttpContext} {rest : List HttpContext}
    (hres : l.results = c :: rest) : Life.Single n { l with results := rest } where
  load := by
    have hload := hl.load
    rw [hres, List.countP_cons] at hload
    show l.running.toNat + rest.countP (·.ends) ≤ 1
    omega
  once := hl.once
  order := hl.order
  quiet := by
    intro hdone
    obtain ⟨hanswer, hrest⟩ := hl.quiet hdone
    rw [hres] at hanswer hrest
    refine ⟨fun r hr => hanswer r (List.mem_cons_of_mem _ hr), hrest.imp id fun h => ⟨h.1, ?_⟩⟩
    have hzero := h.2
    rw [List.countP_cons] at hzero
    show rest.countP (·.ends) = 0
    omega

/-- A result that ends a task is alone of its kind, and the task has ended. -/
theorem Life.Single.of_ends (hl : l.Single n) {c : HttpContext} {rest : List HttpContext}
    (hres : l.results = c :: rest) (hends : c.ends = true) :
    l.running = false ∧ rest.countP (·.ends) = 0 := by
  have hload := hl.load
  rw [hres, List.countP_cons, if_pos hends] at hload
  constructor
  · cases hrun : l.running with
    | false => rfl
    | true =>
      rw [hrun, Bool.toNat_true] at hload
      omega
  · omega

/-- After a deletion nothing of the request is left but results that nobody answers. -/
theorem Life.Single.delete (hl : l.Single n) (hdone : ¬ l.Done n) {e : Entry}
    (he : e ≠ .deleted n) (hanswer : ∀ r ∈ l.results, r.answering = false) :
    ((l.record e).delete n).Single n := by
  have happend : (l.history ++ [e, .deleted n]).countP (·.final) ≤ 1 ∧
      (l.history ++ [e, .deleted n]).Pairwise fun d e => d = .deleted n → e.replies = false := by
    refine hl.append hdone _ ?_ ?_
    · have hdel : (Entry.deleted n).final = false := rfl
      cases hfinal : e.final <;> simp [hfinal, hdel]
    · simp [he]
  have hhistory : ((l.record e).delete n).history = l.history ++ [e, .deleted n] := by
    simp [Life.delete, Life.record, Life.unlink]
  refine ⟨?_, ?_, ?_, fun _ => ⟨hanswer, .inl rfl⟩⟩
  · have hload := hl.load
    show 0 + l.results.countP (·.ends) ≤ 1
    omega
  · rw [hhistory]
    exact happend.1
  · rw [hhistory]
    exact happend.2

theorem Life.Single.take (hl : l.Single n) {c : HttpContext} {rest : List HttpContext}
    (hres : l.results = c :: rest) {uNum : ℕ} (ret : Option ℕ) (desMId : BitVec 16)
    (halone : c.settles uNum = true → ∀ r ∈ rest, r.answering = false) :
    (Life.answer n uNum ret desMId c { l with results := rest }).Single n := by
  have htail := hl.tail hres
  -- A result that is answered is the first of its request to be.
  have hfirst : c.answering = true → ¬ Life.Done n { l with results := rest } := by
    intro hanswer hdone
    have hfalse := (hl.quiet hdone).1 c (by rw [hres]; exact List.mem_cons_self)
    rw [hanswer] at hfalse
    cases hfalse
  rw [Life.answer]
  cases hp : c.policy with
  | invalidResp => exact htail
  | repeatedReq =>
    have hends := ends_of_repeated hp
    obtain ⟨hrun, hzero⟩ := hl.of_ends hres hends
    simp only [Life.retry]
    split
    next hnone =>
      refine ⟨?_, hl.once, hl.order, fun hdone => ⟨(htail.quiet hdone).1, .inl hnone⟩⟩
      show 0 + rest.countP (·.ends) ≤ 1
      omega
    next c₀ hc₀ =>
      have hundone : ¬ l.Done n := by
        intro hdone
        rcases (hl.quiet hdone).2 with hnone | ⟨_, hcount⟩
        · rw [show l.context = some c₀ from hc₀] at hnone
          cases hnone
        · rw [hres, List.countP_cons, if_pos hends] at hcount
          omega
      cases ret with
      | none =>
        refine ⟨?_, hl.once, hl.order, fun hdone => absurd hdone hundone⟩
        show 0 + rest.countP (·.ends) ≤ 1
        omega
      | some t =>
        refine ⟨?_, hl.once, hl.order, fun hdone => absurd hdone hundone⟩
        show 1 + rest.countP (·.ends) ≤ 1
        omega
  | successResp =>
    have hundone := hfirst (by rw [HttpContext.answering, hp])
    dsimp only
    split
    next hdel =>
      refine htail.delete hundone (by simp) (halone ?_)
      rw [HttpContext.settles, hp]
      simpa using hdel.2
    next =>
      obtain ⟨honce, horder⟩ := htail.append hundone [.parsed c]
        (by cases h : (Entry.parsed c).final <;> simp [h]) (by simp)
      refine ⟨htail.load, honce, horder, fun hdone => ?_⟩
      obtain ⟨e, he, hkind⟩ := hdone
      rcases List.mem_append.mp he with he | he
      · exact absurd ⟨e, he, hkind⟩ hundone
      · rw [List.mem_singleton.mp he] at hkind
        have htype : c.eReqType ≠ .fragBuffer := by simpa [Entry.final] using hkind
        obtain ⟨hrun, hzero⟩ := hl.of_ends hres (ends_of_success hp htype)
        refine ⟨halone ?_, .inr ⟨hrun, hzero⟩⟩
        simp [HttpContext.settles, hp, HttpContext.last, htype]
  | error code =>
    have hundone := hfirst (by rw [HttpContext.answering, hp])
    dsimp only
    split
    next hnum =>
      refine htail.delete hundone (by simp) (halone ?_)
      rw [HttpContext.settles, hp]
      simpa using hnum
    next => exact htail

theorem Life.Single.move (hl : l.Single n) (hproper : l.Proper n) {m : Move} (hcan : l.Can n m)
    (halone : l.Alone m) : (l.move n m).Single n := by
  cases m with
  | stay => exact hl
  | push r =>
    rw [hproper.unborn hcan]
    refine ⟨by simp [Life.move, Life.record], ?_, by simp [Life.move, Life.record], ?_⟩
    · simp [Life.move, Life.record, Entry.final]
    · simp [Life.Done, Life.move, Life.record, Entry.final]
  | send known ret =>
    rw [Life.move]
    split
    next => exact hl
    next c rest hwait =>
      obtain ⟨_, hctx, _, hrun, hres, hhist⟩ := hproper.unsent (by rw [hwait]; simp)
      have hundone : ¬ l.Done n := by
        rintro ⟨e, he, hkind⟩
        rcases hhist e he with rfl | rfl <;> simp [Entry.final] at hkind
      split
      · exact ⟨hl.load, hl.once, hl.order, fun hdone => absurd hdone hundone⟩
      · cases ret with
        | none => exact ⟨hl.load, hl.once, hl.order, fun hdone => absurd hdone hundone⟩
        | some t =>
          refine ⟨?_, hl.once, hl.order, fun hdone => absurd hdone hundone⟩
          show 1 + l.results.countP (·.ends) ≤ 1
          rw [hres]
          simp
  | take uNum ret desMId =>
    rw [Life.move]
    split
    next => exact hl
    next c rest hres => exact hl.take hres ret desMId (halone c rest hres)
  | process taskinfo written => exact hl.callback hcan (ends_onProcess taskinfo written)
  | finish taskinfo written => exact hl.ended hcan (ends_onFinish taskinfo written)
  | error taskinfo =>
    refine hl.ended hcan fun c => ?_
    rw [HttpContext.onError]
    exact List.countP_le_length
  | cancel =>
    have hfinal : ∀ e ∈ [Entry.cancelled n], ¬ (e.final = true ∨ e = .deleted n) := by
      simp [Entry.final]
    have honce : (l.history ++ [Entry.cancelled n]).countP (·.final) ≤ 1 := by
      simpa [Entry.final] using hl.once
    have horder : (l.history ++ [Entry.cancelled n]).Pairwise
        fun d e => d = .deleted n → e.replies = false := by
      simpa [List.pairwise_append, Entry.replies] using hl.order
    have hdone : ∀ l' : Life, l'.history = l.history ++ [.cancelled n] → l'.Done n → l.Done n := by
      rintro l' hl' ⟨e, he, hkind⟩
      rw [hl'] at he
      rcases List.mem_append.mp he with he | he
      · exact ⟨e, he, hkind⟩
      · exact absurd hkind (hfinal e he)
    rw [Life.move]
    split
    · refine ⟨?_, honce, horder, fun h => ⟨(hl.quiet (hdone _ rfl h)).1, .inl rfl⟩⟩
      have hload := hl.load
      show 0 + l.results.countP (·.ends) ≤ 1
      omega
    · exact ⟨hl.load, honce, horder, fun h => hl.quiet (hdone _ rfl h)⟩
  | lose => exact hl.stop

end Single

/-! ### Every run -/

section Runs
variable {s s' : State} {a : Act}

theorem Alone.inRange (h : Alone s a) : InRange s a := by
  cases a with
  | pushUrl r => exact h
  | _ => trivial

theorem Alone.life (h : Alone s a) (n : ℕ) : (life s n).Alone (moveOf s n a) := by
  cases a with
  | getResponse ret =>
    rw [Alone] at h
    rw [moveOf]
    split
    next uNum c rest hmain hres =>
      rw [hmain, hres] at h
      split
      next hn =>
        intro c' rest' hhead hsettles r hr
        have hresults : (Web.life s n).results = c :: rest.filter (·.nReqSeq = n) := by
          simp [Web.life, hres, hn]
        rw [hresults] at hhead
        obtain ⟨rfl, rfl⟩ := List.cons.inj hhead
        obtain ⟨hr, hseq⟩ := List.mem_filter.mp hr
        exact h hsettles r hr (by rw [← hn]; simpa using hseq)
      next => split <;> trivial
    next => trivial
  | pushUrl r =>
    rw [moveOf]
    split <;> trivial
  | cycleTrigged => trivial
  | sendUrl ret =>
    rw [moveOf]
    split
    · trivial
    · split <;> trivial
  | process taskid taskinfo written =>
    rw [moveOf]
    split <;> trivial
  | finish taskid taskinfo written =>
    rw [moveOf]
    split
    · trivial
    · split <;> trivial
  | error taskid taskinfo =>
    rw [moveOf]
    split
    · trivial
    · split <;> trivial
  | cancelTask m =>
    rw [moveOf]
    split
    · trivial
    · split <;> trivial

theorem single_init (n : ℕ) : (life {} n).Single n where
  load := by simp [life, State.runs]
  once := by simp [life]
  order := List.Pairwise.nil
  quiet := by
    rintro ⟨e, he, _⟩
    cases he

theorem atMostOnce_of_single (h : ∀ n, (life s n).Single n) : AtMostOnce s := by
  intro n
  constructor
  · have honce := (h n).once
    rw [life, List.countP_filter] at honce
    simpa [and_comm] using honce
  · have horder := (h n).order
    rw [life, List.pairwise_filter] at horder
    refine horder.imp fun {d e} hde hdel hseq => hde ?_ (by simpa using hseq) hdel
    simp [hdel, Entry.nReqSeq]

/-- Along every run that leaves no result behind, a request gets at most one final answer. -/
theorem atMostOnce_along (as : List Act) (h : Along step Alone {} as) :
    ∀ t ∈ states step {} as, AtMostOnce t := by
  intro t ht
  refine atMostOnce_of_single
    (invariant (I := fun s => Base s ∧ ∀ n, (life s n).Single n) ?_ as {} ⟨base_init, single_init⟩
      h t ht).2
  rintro s a s' ⟨hbase, hsingle⟩ halone hs
  refine ⟨hbase.step halone.inRange hs, fun n => ?_⟩
  rw [life_step hbase.keyed hbase.linked hs]
  exact (hsingle n).move (hbase.proper n) (hbase.can halone.inRange hs n) (halone.life n)

end Runs

/-- A download whose callbacks write with these results, and the cycle that takes what they left. -/
def download (first last : Bool) : List Act :=
  [.pushUrl { nEventValue := 0x3000A00A, strUrl := ['u'], eReqType := .onceFile, srcMId := 10 },
    .cycleTrigged, .getResponse none, .sendUrl (some 0), .sendUrl none, .sendUrl none,
    .process 0 {} first, .finish 0 {} last, .cycleTrigged, .getResponse none, .getResponse none]

theorem atMostOnce_download : Along step Alone {} (download true true) ∧
    ∀ t ∈ states step {} (download true true), AtMostOnce t :=
  ⟨by decide +kernel, atMostOnce_along (download true true) (by decide +kernel)⟩

theorem download_runs : ((download true false).foldlM step {}).isSome = true := by decide +kernel

/-- The last write fails: its result is in the list twice, and two error events are pushed. -/
theorem answered_twice : ¬ ∀ as, ∀ t ∈ states step {} as, AtMostOnce t := by
  intro h
  have honce := (h (download true false) (Option.get _ download_runs)
    (mem_states_foldlM (Option.some_get download_runs).symm) 101).1
  revert honce
  decide +kernel

end UrlTraveler.Web
