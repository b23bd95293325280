import UrlTraveler.Web.Lives

/-! No request goes unanswered, where nothing is lost.

    A request whose life has begun is waiting, or it has a context and is running or has a result in
    the list, until it is answered. An answer is lost where a failure is taken as the twelfth result
    of a cycle and dropped, where `addTask` fails, and where a place is cleared that belongs to
    another request by then. -/

namespace UrlTraveler.Web
open Maps Runs

def Quiescent (s : State) : Prop := s.m_vRequestQueue = [] ∧ s.m_lstResult = [] ∧ s.tasks = []

def Answered (s : State) : Prop :=
  ∀ n, .pushed n ∈ s.log → .cancelled n ∉ s.log → ∃ e ∈ s.log, e.nReqSeq = n ∧ e.replies

/-- Requests have a URL, and may be repeated. -/
def Asks : Act → Prop
  | .pushUrl r => r.strUrl ≠ [] ∧ r.bAllowRepeated = true
  | _ => True

def HttpContext.fails (c : HttpContext) : Bool :=
  match c.policy with
  | .error _ => true
  | _ => false

/-- The place noted for a request has not gone to another request since. -/
def OwnPos (s : State) (n : ℕ) : Prop :=
  ∀ taskId ∈ s.m_mapSeqNo2TaskId.lookup n, ∀ m ∈ s.m_mapTaskid2Seqno.lookup taskId, m = n

/-- A result is taken without loss: only its own task is cleared, what is to be sent again is sent,
    and a failure is not the twelfth result of the cycle. -/
def TakesWell (s : State) (ret : Option ℕ) (uNum : ℕ) (c : HttpContext) : Prop :=
  (clears uNum c = true → OwnPos s c.nReqSeq) ∧
    (c.policy = .repeatedReq → (s.m_mapRequest.lookup c.nReqSeq).isSome → ret.isSome) ∧
    (c.fails = true → uNum ≤ 10)

/-- The steps that lose no request. The last number is no number: callbacks take it for -1. -/
def Delivers (s : State) : Act → Prop
  | .pushUrl _ => s.m_nReqSeq + 2 < 2 ^ 32
  | .getResponse ret =>
    match s.main, s.m_lstResult with
    | .getResponse uNum, c :: _ => TakesWell s ret uNum c
    | _, _ => True
  | .sendUrl ret => s.m_vRequestQueue ≠ [] → ret.isSome
  | .cancelTask n => OwnPos s n
  | _ => True

instance : DecidablePred Asks
  | .pushUrl r => inferInstanceAs (Decidable (r.strUrl ≠ [] ∧ r.bAllowRepeated = true))
  | .cycleTrigged | .getResponse _ | .sendUrl _ | .process _ _ _ | .finish _ _ _ | .error _ _
  | .cancelTask _ => .isTrue trivial

instance (s : State) (n : ℕ) : Decidable (OwnPos s n) :=
  inferInstanceAs (Decidable (∀ taskId ∈ s.m_mapSeqNo2TaskId.lookup n,
    ∀ m ∈ s.m_mapTaskid2Seqno.lookup taskId, m = n))

instance (s : State) (ret : Option ℕ) (uNum : ℕ) (c : HttpContext) :
    Decidable (TakesWell s ret uNum c) :=
  inferInstanceAs (Decidable (_ ∧ _))

instance (s : State) : DecidablePred (Delivers s)
  | .pushUrl _ => inferInstanceAs (Decidable (s.m_nReqSeq + 2 < 2 ^ 32))
  | .getResponse ret =>
    match hmain : s.main, hres : s.m_lstResult with
    | .getResponse uNum, c :: _ =>
      decidable_of_iff (TakesWell s ret uNum c) (by rw [Delivers, hmain, hres])
    | .getResponse _, [] => .isTrue (by rw [Delivers, hmain, hres]; trivial)
    | .idle, _ => .isTrue (by rw [Delivers, hmain]; trivial)
    | .sendUrl _, _ => .isTrue (by rw [Delivers, hmain]; trivial)
  | .sendUrl ret => inferInstanceAs (Decidable (s.m_vRequestQueue ≠ [] → ret.isSome))
  | .cancelTask n => inferInstanceAs (Decidable (OwnPos s n))
  | .cycleTrigged | .process _ _ _ | .finish _ _ _ | .error _ _ => .isTrue trivial

instance (s : State) : Decidable (Quiescent s) := inferInstanceAs (Decidable (_ ∧ _))

/-- The moves that keep a request from being lost. -/
def Life.Delivered (n : ℕ) (l : Life) : Move → Prop
  | .push r => (r.strUrl ≠ [] ∧ r.bAllowRepeated = true) ∧ n ≠ 2 ^ 32 - 1
  | .send _ ret => ret.isSome
  | .take uNum ret _ => ∀ c ∈ l.results.head?,
    (c.policy = .repeatedReq → l.context.isSome → ret.isSome) ∧ (c.fails = true → uNum ≤ 10)
  | .lose => l.running = false
  | _ => True

/-- Until it is answered, a request waits, or it has its context and runs or has a result. -/
structure Life.Kept (n : ℕ) (l : Life) : Prop where
  number : .pushed n ∈ l.history → n ≠ 2 ^ 32 - 1
  asked : ∀ c ∈ l.waiting, c.strURL ≠ [] ∧ c.bAllowRepeated = true
  url : ∀ c, l.context = some c ∨ c ∈ l.results → c.strURL ≠ []
  pending : .pushed n ∈ l.history → .cancelled n ∉ l.history →
    (∀ e ∈ l.history, e.replies = false) →
    l.waiting ≠ [] ∨ l.context.isSome = true ∧ (l.running = true ∨ l.results ≠ [])

section Kept
variable {n : ℕ} {l : Life}

theorem policy_ne_invalid {c : HttpContext} (h : c.strURL ≠ []) : c.policy ≠ .invalidResp := by
  rw [HttpContext.policy, if_neg h]
  split_ifs <;> simp

theorem Life.Kept.callback (hl : l.Kept n) {body : HttpContext → HttpContext × List HttpContext}
    (hbody : Copies body) : (l.callback body).Kept n := by
  rw [Life.callback]
  split
  next => exact hl
  next c hc =>
    have hurl : c.strURL ≠ [] := hl.url c (.inl hc)
    refine ⟨hl.number, hl.asked, ?_, ?_⟩
    · rintro c' (hc' | hc')
      · cases hc'
        rw [hbody.strURL]
        exact hurl
      · rcases List.mem_append.mp hc' with hc' | hc'
        · exact hl.url c' (.inr hc')
        · rw [(hbody.mem hc').2]
          exact hurl
    · intro hpushed hcancel hreply
      rcases hl.pending hpushed hcancel hreply with hwait | ⟨_, hrun | hres⟩
      · exact .inl hwait
      · exact .inr ⟨rfl, .inl hrun⟩
      · exact .inr ⟨rfl, .inr (by simp [hres])⟩

/-- The callback that ends a task leaves a result. -/
theorem Life.Kept.ended (hl : l.Kept n) {body : HttpContext → HttpContext × List HttpContext}
    (hbody : Copies body) (hout : ∀ c, (body c).2 ≠ []) : (l.callback body).stop.Kept n := by
  have hkept := hl.callback hbody
  refine ⟨hkept.number, hkept.asked, hkept.url, fun hpushed hcancel hreply => ?_⟩
  rcases hkept.pending hpushed hcancel hreply with hwait | ⟨hctx, _⟩
  · exact .inl hwait
  · refine .inr ⟨hctx, .inr ?_⟩
    rw [Life.callback] at hctx
    show (l.callback body).results ≠ []
    rw [Life.callback]
    split at hctx
    next hnone =>
      rw [hnone] at hctx
      cases hctx
    next c _ => simp [hout c]

theorem onFinish_ne_nil (taskinfo : TaskInfo) (written : Bool) (c : HttpContext) :
    (c.onFinish taskinfo written).2 ≠ [] := by
  rw [HttpContext.onFinish]
  dsimp only [HttpContext.report]
  cases c.eReqType <;> cases written <;> simp

theorem Life.Kept.take (hl : l.Kept n) {c : HttpContext} {rest : List HttpContext}
    (hres : l.results = c :: rest) {uNum : ℕ} {ret : Option ℕ} (desMId : BitVec 16)
    (hret : c.policy = .repeatedReq → l.context.isSome → ret.isSome)
    (hnum : c.fails = true → uNum ≤ 10) :
    (Life.answer n uNum ret desMId c { l with results := rest }).Kept n := by
  obtain ⟨hw, hr, hh, hc⟩ := answer_frame (n := n) uNum ret desMId c { l with results := rest }
  have hcurl : c.strURL ≠ [] := hl.url c (.inr (by simp [hres]))
  refine ⟨?_, ?_, ?_, ?_⟩
  · intro hpushed
    refine hl.number ?_
    have hmove : (l.move n (.take uNum ret desMId)).history =
        (Life.answer n uNum ret desMId c { l with results := rest }).history := by
      rw [Life.move, hres]
    rw [← hmove] at hpushed
    rcases pushed_move hpushed with h | ⟨r, hr⟩
    · exact h
    · cases hr
  · rw [hw]
    exact hl.asked
  · rintro c' (hc' | hc')
    · obtain ⟨c₀, hc₀, _, hurl⟩ := hc c' hc'
      rw [hurl]
      exact hl.url c₀ (.inl hc₀)
    · rw [hr] at hc'
      exact hl.url c' (.inr (by rw [hres]; exact List.mem_cons_of_mem _ hc'))
  · intro hpushed hcancel hreply
    rw [Life.answer] at hpushed hcancel hreply ⊢
    cases hp : c.policy with
    | invalidResp => exact absurd hp (policy_ne_invalid hcurl)
    | repeatedReq =>
      simp only [hp, Life.retry, Life.unlink] at hpushed hcancel hreply ⊢
      cases hctx : l.context with
      | none =>
        simp only [hctx] at hpushed hcancel hreply
        rcases hl.pending hpushed hcancel hreply with hwait | ⟨hsome, _⟩
        · exact .inl hwait
        · rw [hctx] at hsome
          cases hsome
      | some c₀ =>
        obtain ⟨t, rfl⟩ := Option.isSome_iff_exists.mp (hret hp (by rw [hctx]; rfl))
        exact .inr ⟨rfl, .inl rfl⟩
    | successResp =>
      have hmem : Entry.parsed c ∈ (Life.answer n uNum ret desMId c { l with results := rest }).history := by
        rw [Life.answer, hp]
        dsimp only
        split <;> simp [Life.delete, Life.record, Life.unlink]
      rw [Life.answer] at hmem
      have := hreply _ hmem
      cases this
    | error code =>
      have hle : uNum ≤ 10 := hnum (by rw [HttpContext.fails, hp])
      simp only [hp, if_pos hle] at hreply
      have := hreply (.event (errorEvent desMId c code))
        (by simp [Life.delete, Life.record, Life.unlink])
      cases this

theorem Life.Kept.move (hl : l.Kept n) {m : Move} (hcan : l.Can n m) (hm : l.Delivered n m) :
    (l.move n m).Kept n := by
  cases m with
  | stay => exact hl
  | push r =>
    obtain ⟨⟨hurl, hrep⟩, hn⟩ := hm
    refine ⟨fun _ => hn, ?_, hl.url, fun _ _ _ => .inl ?_⟩
    · intro c hc
      rcases List.mem_append.mp hc with hc | hc
      · exact hl.asked c hc
      · rw [List.mem_singleton.mp hc]
        exact ⟨hurl, hrep⟩
    · simp [Life.move, Life.record]
  | send known ret =>
    rw [Life.move]
    split
    next => exact hl
    next c rest hwait =>
      have hasked := hl.asked c (by rw [hwait]; exact List.mem_cons_self)
      obtain ⟨t, rfl⟩ := Option.isSome_iff_exists.mp hm
      rw [if_neg (by simp [hasked.1, hasked.2])]
      refine ⟨hl.number, ?_, ?_, fun _ _ _ => .inr ⟨rfl, .inl rfl⟩⟩
      · intro c' hc'
        exact hl.asked c' (by rw [hwait]; exact List.mem_cons_of_mem _ hc')
      · rintro c' (hc' | hc')
        · cases hc'
          exact hasked.1
        · exact hl.url c' (.inr hc')
  | take uNum ret desMId =>
    rw [Life.move]
    split
    next => exact hl
    next c rest hres =>
      obtain ⟨hret, hnum⟩ := hm c (by rw [hres]; rfl)
      exact hl.take hres desMId hret hnum
  | process taskinfo written => exact hl.callback (copies_onProcess taskinfo written)
  | finish taskinfo written =>
    exact hl.ended (copies_onFinish taskinfo written) (onFinish_ne_nil taskinfo written)
  | error taskinfo => exact hl.ended (copies_onError taskinfo) fun c => by simp [HttpContext.onError]
  | cancel =>
    have hcancel : .cancelled n ∈ (l.move n .cancel).history := by
      rw [Life.move]
      split <;> simp [Life.record]
    have hhistory : .pushed n ∈ l.history := hcan
    refine ⟨fun _ => hl.number hhistory, ?_, ?_, fun _ h => absurd hcancel h⟩
    · rw [Life.move]
      split <;> exact hl.asked
    · rw [Life.move]
      split
      · rintro c (hc | hc)
        · cases hc
        · exact hl.url c (.inr hc)
      · exact hl.url
  | lose =>
    have hstop : l.stop = l := Life.ext rfl rfl rfl hm.symm rfl rfl
    rw [Life.move, hstop]
    exact hl

end Kept

section Delivered
variable {s s' : State} {a : Act} {n m : ℕ}

theorem stopped_of_shares (hown : OwnPos s m) (hne : n ≠ m) (hshare : shares s n m = true) :
    (life s n).running = false := by
  by_contra hrun
  obtain ⟨taskId, hslot, hmap, _⟩ := runs_iff.mp (Bool.eq_true_of_not_eq_false hrun)
  simp only [shares, decide_eq_true_eq] at hshare
  exact hne (hown taskId (by rw [← hshare.2]; exact hslot) n hmap)

theorem Base.ended_known (h : Base s) (hkept : (life s n).Kept n) {taskid : ℕ}
    (htask : taskid ∈ s.tasks) (hmap : s.m_mapTaskid2Seqno.lookup taskid = some n) :
    getSeqNo s taskid = some n := by
  have hrun : (life s n).running = true := runs_iff.mpr ⟨taskid, h.linked taskid n hmap, hmap, htask⟩
  have hborn : .pushed n ∈ (life s n).history := by
    by_contra hunborn
    rw [(h.proper n).unborn hunborn] at hrun
    cases hrun
  rw [getSeqNo, hmap]
  simpa using hkept.number hborn

/-- The last call for a task is a call for the request that runs it. -/
theorem Base.delivered_ended (h : Base s) (hkept : (life s n).Kept n) {taskid : ℕ}
    (htask : taskid ∈ s.tasks) {move : Move} (hmove : (life s n).Delivered n move) :
    (life s n).Delivered n (if getSeqNo s taskid = some n then move
      else if s.m_mapTaskid2Seqno.lookup taskid = some n then .lose else .stay) := by
  split
  next => exact hmove
  next hseq =>
    split
    next hmap => exact absurd (h.ended_known hkept htask hmap) hseq
    next => trivial

theorem Base.delivered (h : Base s) (hkept : ∀ n, (life s n).Kept n) (hasks : Asks a)
    (hd : Delivers s a) (hs : Web.step s a = some s') (n : ℕ) :
    (life s n).Delivered n (moveOf s n a) := by
  cases a with
  | pushUrl r =>
    rw [moveOf]
    split
    next hn =>
      refine ⟨hasks, ?_⟩
      have hlt : s.m_nReqSeq + 2 < 2 ^ 32 := hd
      have hnext : s.nextSeq = s.m_nReqSeq + 1 := Nat.mod_eq_of_lt (by omega)
      omega
    next => trivial
  | cycleTrigged => trivial
  | getResponse ret =>
    rw [Delivers] at hd
    rw [moveOf]
    split
    next uNum c rest hmain hres =>
      rw [hmain, hres] at hd
      obtain ⟨hown, hret, hnum⟩ := hd
      split
      next hn =>
        intro c' hc'
        have hhead : (life s n).results = c :: rest.filter (·.nReqSeq = n) := by
          simp [life, hres, hn]
        rw [hhead] at hc'
        cases hc'
        exact ⟨fun hp hctx => hret hp (by rw [← hn]; exact hctx), hnum⟩
      next hn =>
        split
        next hlose => exact stopped_of_shares (hown hlose.1) hn hlose.2
        next => trivial
    next => trivial
  | sendUrl ret =>
    rw [moveOf]
    split
    next => trivial
    next c rest hqueue =>
      split
      next => exact hd (by rw [hqueue]; simp)
      next => trivial
  | process taskid taskinfo written =>
    rw [moveOf]
    split <;> trivial
  | finish taskid taskinfo written =>
    simp only [Web.step] at hs
    split at hs
    next htask => exact h.delivered_ended (hkept n) htask trivial
    next => cases hs
  | error taskid taskinfo =>
    simp only [Web.step] at hs
    split at hs
    next htask => exact h.delivered_ended (hkept n) htask trivial
    next => cases hs
  | cancelTask m =>
    rw [moveOf]
    split
    next => trivial
    next hn =>
      split
      next hshare => exact stopped_of_shares hd hn hshare
      next => trivial

theorem Delivers.inRange (hd : Delivers s a) : InRange s a := by
  cases a with
  | pushUrl r =>
    have hlt : s.m_nReqSeq + 2 < 2 ^ 32 := hd
    show s.m_nReqSeq + 1 < 2 ^ 32
    omega
  | _ => trivial

theorem kept_init (n : ℕ) : (life {} n).Kept n where
  number := fun h => by cases h
  asked := fun c h => by cases h
  url := fun c h => by rcases h with h | h <;> cases h
  pending := fun h => by cases h

end Delivered

theorem answered_of_kept {s : State} (hkept : ∀ n, (life s n).Kept n) (hquiet : Quiescent s) :
    Answered s := by
  obtain ⟨hqueue, hres, htasks⟩ := hquiet
  intro n hpushed hcancel
  by_contra hnone
  have hreply : ∀ e ∈ (life s n).history, e.replies = false := by
    intro e he
    obtain ⟨he, hn⟩ := List.mem_filter.mp he
    by_contra hrep
    exact hnone ⟨e, he, by simpa using hn, Bool.eq_true_of_not_eq_false hrep⟩
  rcases (hkept n).pending (mem_history (e := .pushed n).mpr hpushed)
      (fun h => hcancel (mem_history (e := .cancelled n).mp h)) hreply with hwait | ⟨_, hrun | hlist⟩
  · exact hwait (by simp [life, hqueue])
  · obtain ⟨taskId, _, _, htask⟩ := runs_iff.mp hrun
    rw [htasks] at htask
    cases htask
  · exact hlist (by simp [life, hres])

/-- Along every run that loses nothing, every quiescent state has answered what was pushed. -/
theorem answered_along (as : List Act)
    (h : Along step (fun s a => Asks a ∧ Delivers s a) {} as) :
    ∀ t ∈ states step {} as, Quiescent t → Answered t := by
  intro t ht
  refine answered_of_kept
    (invariant (I := fun s => Base s ∧ ∀ n, (life s n).Kept n) ?_ as {} ⟨base_init, kept_init⟩ h t ht).2
  rintro s a s' ⟨hbase, hkept⟩ ⟨hasks, hd⟩ hs
  refine ⟨hbase.step hd.inRange hs, fun n => ?_⟩
  rw [life_step hbase.keyed hbase.linked hs]
  exact (hkept n).move (hbase.can hd.inRange hs n) (hbase.delivered hkept hasks hd hs n)

/-- A cycle in which no result is there, and `addTask` returns `ret` for the first request. -/
def sendCycle (ret : Option ℕ) : List Act :=
  [.cycleTrigged, .getResponse none, .sendUrl ret, .sendUrl none, .sendUrl none]

def favIcon : Request where
  nEventValue := serviceValueWebBegin
  strUrl := ['u']
  srcMId := 2

/-- A request fails once, is sent again, and is parsed. -/
def retried : List Act :=
  .pushUrl favIcon :: sendCycle (some 0) ++
    ([.error 0 { errcode := 34 }, .cycleTrigged, .getResponse (some 1), .getResponse none,
      .sendUrl none, .sendUrl none, .sendUrl none, .finish 1 {} true, .cycleTrigged,
      .getResponse none, .getResponse none, .sendUrl none, .sendUrl none, .sendUrl none] : List Act)

theorem answered_along_retried : Along step (fun s a => Asks a ∧ Delivers s a) {} retried ∧
    ∀ t ∈ states step {} retried, Quiescent t → Answered t := by
  have hrun : Along step (fun s a => Asks a ∧ Delivers s a) {} retried := by decide +kernel
  exact ⟨hrun, answered_along retried hrun⟩

/-- `addTask` fails for the only request. -/
def refused : List Act := .pushUrl favIcon :: sendCycle none

theorem refused_runs : (refused.foldlM step {}).isSome = true := by decide +kernel

/-- Nobody reads the return code of `addTask`: the request is gone. -/
theorem unanswered_refused : ¬ ∀ as, Along step (fun _ a => Asks a) {} as →
    ∀ t ∈ states step {} as, Quiescent t → Answered t := by
  intro h
  have hanswered := h refused (by decide +kernel) (Option.get _ refused_runs)
    (mem_states_foldlM (Option.some_get refused_runs).symm) (by decide +kernel) 101
    (by decide +kernel) (by decide +kernel)
  revert hanswered
  decide +kernel

end UrlTraveler.Web
