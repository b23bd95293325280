import UrlTraveler.Web.WebModule

/-! The life of one request.

        waiting ──send──▶ running ──finish, error──▶ results ──take──▶ parser, error event
                             ▲                          │
                             └──────────────────────────┘

    The queue, the maps and the list of results are shared by all requests. `life s n` is what they
    hold of the request with number `n`, and every step of the module moves every life by itself
    (`life_step`): the lives touch only where two requests were given one place in `taskQue`, and
    clearing the one stops the task of the other (`Move.lose`). -/

namespace UrlTraveler.Web
open Maps Runs

/-! ### Moves -/

@[ext] structure Life where
  waiting : List HttpContext := []
  context : Option HttpContext := none
  slot : Option ℕ := none
  running : Bool := false
  results : List HttpContext := []
  history : List Entry := []

inductive Move where
  | stay
  | push (r : Request)
  | send (known : Bool) (ret : Option ℕ)
  | take (uNum : ℕ) (ret : Option ℕ) (desMId : BitVec 16)
  | process (taskinfo : TaskInfo) (written : Bool)
  | finish (taskinfo : TaskInfo) (written : Bool)
  | error (taskinfo : TaskInfo)
  | cancel
  | lose

def Life.unlink (l : Life) : Life := { l with slot := none, running := false }

def Life.record (l : Life) (e : Entry) : Life := { l with history := l.history ++ [e] }

def Life.delete (n : ℕ) (l : Life) : Life := { l.unlink with context := none }.record (.deleted n)

def Life.start (ret : Option ℕ) (l : Life) : Life :=
  match ret with
  | none => l
  | some taskId => { l with slot := some taskId, running := true }

def Life.retry (nFailedTime : ℕ) (ret : Option ℕ) (l : Life) : Life :=
  match l.context with
  | none => l
  | some c => { l with context := some { c with nFailedTime := nFailedTime } }.start ret

def Life.callback (body : HttpContext → HttpContext × List HttpContext) (l : Life) : Life :=
  match l.context with
  | none => l
  | some c => { l with context := some (body c).1, results := l.results ++ (body c).2 }

def Life.stop (l : Life) : Life := { l with running := false }

/-- The request's next result is taken from the list. -/
def Life.answer (n uNum : ℕ) (ret : Option ℕ) (desMId : BitVec 16) (c : HttpContext) (l : Life) :
    Life :=
  match c.policy with
  | .invalidResp => l
  | .repeatedReq => l.unlink.retry c.fail.nFailedTime ret
  | .successResp =>
    if uNum ≤ 10 ∧ c.last then (l.record (.parsed c)).delete n else l.record (.parsed c)
  | .error code =>
    if uNum ≤ 10 then (l.record (.event (errorEvent desMId c code))).delete n else l

def Life.move (n : ℕ) (l : Life) : Move → Life
  | .stay => l
  | .push r => { l with waiting := l.waiting ++ [r.context n] }.record (.pushed n)
  | .send known ret =>
    match l.waiting with
    | [] => l
    | c :: rest =>
      if c.strURL = [] ∨ c.bAllowRepeated = false ∧ known then { l with waiting := rest }
      else { l with waiting := rest, context := some c }.start ret
  | .take uNum ret desMId =>
    match l.results with
    | [] => l
    | c :: rest => { l with results := rest }.answer n uNum ret desMId c
  | .process taskinfo written => l.callback (·.onProcess taskinfo written)
  | .finish taskinfo written => (l.callback (·.onFinish taskinfo written)).stop
  | .error taskinfo => (l.callback (·.onError taskinfo)).stop
  | .cancel =>
    if l.slot.isSome then { l.unlink with context := none }.record (.cancelled n)
    else l.record (.cancelled n)
  | .lose => l.stop

/-! ### The lives in a state -/

/-- The task of a request is at the place noted for it, and its callbacks find the request. -/
def State.runs (s : State) (n : ℕ) : Bool :=
  (s.m_mapSeqNo2TaskId.lookup n).any fun taskId =>
    s.m_mapTaskid2Seqno.lookup taskId = some n ∧ taskId ∈ s.tasks

def life (s : State) (n : ℕ) : Life where
  waiting := s.m_vRequestQueue.filter (·.nReqSeq = n)
  context := s.m_mapRequest.lookup n
  slot := s.m_mapSeqNo2TaskId.lookup n
  running := s.runs n
  results := s.m_lstResult.filter (·.nReqSeq = n)
  history := s.log.filter (·.nReqSeq = n)

/-- Two requests were given one place. -/
def shares (s : State) (n m : ℕ) : Bool :=
  (s.m_mapSeqNo2TaskId.lookup m).isSome ∧
    s.m_mapSeqNo2TaskId.lookup n = s.m_mapSeqNo2TaskId.lookup m

/-- Taking this result clears the place of its request. -/
def clears (uNum : ℕ) (c : HttpContext) : Bool :=
  match c.policy with
  | .invalidResp => false
  | .repeatedReq => true
  | .successResp => uNum ≤ 10 ∧ c.last
  | .error _ => uNum ≤ 10

/-- What a step is for the request with number `n`. -/
def moveOf (s : State) (n : ℕ) : Act → Move
  | .pushUrl r => if n = s.nextSeq then .push r else .stay
  | .cycleTrigged => .stay
  | .getResponse ret =>
    match s.main, s.m_lstResult with
    | .getResponse uNum, c :: _ =>
      if n = c.nReqSeq then .take uNum ret (s.desMId n)
      else if clears uNum c ∧ shares s n c.nReqSeq then .lose
      else .stay
    | _, _ => .stay
  | .sendUrl ret =>
    match s.m_vRequestQueue with
    | [] => .stay
    | c :: rest =>
      if n = c.nReqSeq then .send (isExistUrl c.strURL { s with m_vRequestQueue := rest }) ret
      else .stay
  | .process taskid taskinfo written =>
    if getSeqNo s taskid = some n then .process taskinfo written else .stay
  | .finish taskid taskinfo written =>
    if getSeqNo s taskid = some n then .finish taskinfo written
    else if s.m_mapTaskid2Seqno.lookup taskid = some n then .lose
    else .stay
  | .error taskid taskinfo =>
    if getSeqNo s taskid = some n then .error taskinfo
    else if s.m_mapTaskid2Seqno.lookup taskid = some n then .lose
    else .stay
  | .cancelTask m => if n = m then .cancel else if shares s n m then .lose else .stay

section Operations
variable {s : State} {n : ℕ}

theorem runs_iff : s.runs n = true ↔ ∃ taskId, s.m_mapSeqNo2TaskId.lookup n = some taskId ∧
    s.m_mapTaskid2Seqno.lookup taskId = some n ∧ taskId ∈ s.tasks := by
  rw [State.runs, Option.any_eq_true]
  simp

theorem life_goto (s : State) (main : Main) (n : ℕ) : life (s.goto main) n = life s n := rfl

theorem life_record (s : State) (e : Entry) (n : ℕ) :
    life (s.record e) n = if e.nReqSeq = n then (life s n).record e else life s n := by
  split
  next he => exact Life.ext rfl rfl rfl rfl rfl (by simp [life, State.record, Life.record, he])
  next he => exact Life.ext rfl rfl rfl rfl rfl (by simp [life, State.record, he])

theorem life_setRequest (s : State) (k : ℕ) (c : HttpContext) (n : ℕ) :
    life (s.setRequest k c) n =
      if n = k then { life s n with context := some c } else life s n := by
  have hcontext := lookup_setKey s.m_mapRequest k c n
  split
  next hn => exact Life.ext rfl (by rw [if_pos hn] at hcontext; exact hcontext) rfl rfl rfl rfl
  next hn => exact Life.ext rfl (by rw [if_neg hn] at hcontext; exact hcontext) rfl rfl rfl rfl

theorem life_eraseRequest (s : State) (k n : ℕ) :
    life (s.eraseRequest k) n = if n = k then { life s n with context := none } else life s n := by
  have hcontext := lookup_eraseKey s.m_mapRequest k n
  split
  next hn => exact Life.ext rfl (by rw [if_pos hn] at hcontext; exact hcontext) rfl rfl rfl rfl
  next hn => exact Life.ext rfl (by rw [if_neg hn] at hcontext; exact hcontext) rfl rfl rfl rfl

theorem life_addTask {ret : Option ℕ} (hfree : FreePos s ret) (k : ℕ) (type : TaskType) (n : ℕ) :
    life (addTask k type ret s) n = if n = k then (life s n).start ret else life s n := by
  cases ret with
  | none => exact (ite_self _).symm
  | some t =>
    have ht : t ∉ s.tasks := hfree t rfl
    have hslot := lookup_setKey s.m_mapSeqNo2TaskId k t n
    split
    next hn =>
      rw [if_pos hn] at hslot
      have hruns : (addTask k type (some t) s).runs n = true :=
        runs_iff.mpr ⟨t, hslot, by simp [addTask, lookup_setKey, hn]⟩
      exact Life.ext rfl rfl hslot hruns rfl rfl
    next hn =>
      rw [if_neg hn] at hslot
      -- The place was free, so no other request ran there.
      have hruns : (addTask k type (some t) s).runs n = s.runs n := by
        rw [Bool.eq_iff_iff, runs_iff, runs_iff]
        simp only [addTask, lookup_setKey, if_neg hn, List.mem_append, List.mem_singleton]
        refine exists_congr fun u => and_congr_right fun _ => ?_
        by_cases hu : u = t
        · simp [hu, ht, Ne.symm hn]
        · simp [hu]
      exact Life.ext rfl rfl hslot hruns rfl rfl

theorem life_clearSeqIdMap (s : State) (k n : ℕ) :
    life (clearSeqIdMap k s) n =
      if n = k then (life s n).unlink else if shares s n k then (life s n).stop else life s n := by
  cases hk : s.m_mapSeqNo2TaskId.lookup k with
  | none =>
    have hclear : clearSeqIdMap k s = s := by rw [clearSeqIdMap, hk]
    rw [hclear, shares, hk]
    split
    next hn =>
      rw [hn]
      exact Life.ext rfl rfl hk (by simp [life, State.runs, hk, Life.unlink]) rfl rfl
    next => simp
  | some t =>
    have hclear : clearSeqIdMap k s = { s.removeTask t with
        m_mapTaskid2Seqno := eraseKey s.m_mapTaskid2Seqno t
        m_mapSeqNo2TaskId := eraseKey s.m_mapSeqNo2TaskId k } := by
      rw [clearSeqIdMap, hk]
    have hslot := lookup_eraseKey s.m_mapSeqNo2TaskId k n
    rw [hclear, shares, hk]
    split
    next hn =>
      rw [if_pos hn] at hslot
      exact Life.ext rfl rfl hslot (by simp [life, State.runs, hslot, Life.unlink]) rfl rfl
    next hn =>
      rw [if_neg hn] at hslot
      by_cases hshare : s.m_mapSeqNo2TaskId.lookup n = some t
      · have hif : decide ((some t).isSome ∧ s.m_mapSeqNo2TaskId.lookup n = some t) = true := by
          simp [hshare]
        rw [if_pos hif]
        refine Life.ext rfl rfl hslot ?_ rfl rfl
        simp [life, State.runs, hslot, hshare, lookup_eraseKey, Life.stop]
      · have hif : ¬ decide ((some t).isSome ∧ s.m_mapSeqNo2TaskId.lookup n = some t) = true := by
          simp [hshare]
        rw [if_neg hif]
        refine Life.ext rfl rfl hslot ?_ rfl rfl
        rw [life, life, Bool.eq_iff_iff, runs_iff, runs_iff]
        simp only [hslot, lookup_eraseKey, State.removeTask]
        refine exists_congr fun u => and_congr_right fun hu => ?_
        have hut : u ≠ t := by
          rintro rfl
          exact hshare hu
        simp [hut]

theorem life_deleteSeqNo (s : State) (k n : ℕ) :
    life (deleteSeqNo k s) n =
      if n = k then (life s n).delete n else if shares s n k then (life s n).stop else life s n := by
  rw [deleteSeqNo, life_record, life_eraseRequest, life_clearSeqIdMap]
  by_cases hn : n = k
  · subst hn
    simp [Entry.nReqSeq, Life.delete]
  · simp [Entry.nReqSeq, hn, Ne.symm hn]

theorem life_cancelTask (s : State) (k n : ℕ) :
    life (cancelTask k s) n =
      if n = k then (life s n).move n .cancel
      else if shares s n k then (life s n).stop else life s n := by
  by_cases hk : (s.m_mapSeqNo2TaskId.lookup k).isSome
  · rw [cancelTask, if_pos hk, life_record, life_eraseRequest, life_clearSeqIdMap]
    by_cases hn : n = k
    · subst hn
      have hslot : (life s n).slot.isSome := hk
      simp [Entry.nReqSeq, Life.move, hslot]
    · simp [Entry.nReqSeq, hn, Ne.symm hn]
  · have hshare : ¬ shares s n k = true := by simp [shares, hk]
    rw [cancelTask, if_neg hk, life_record]
    by_cases hn : n = k
    · subst hn
      have hslot : ¬ (life s n).slot.isSome := hk
      rw [Life.move, if_neg hslot]
      simp [Entry.nReqSeq]
    · simp [Entry.nReqSeq, hn, Ne.symm hn, hshare]

theorem tasks_clearSeqIdMap (s : State) (k : ℕ) : (clearSeqIdMap k s).tasks ⊆ s.tasks := by
  rw [clearSeqIdMap]
  split
  next => exact fun _ => id
  next => exact fun _ ht => List.mem_of_mem_filter ht

theorem FreePos.clear {ret : Option ℕ} (hfree : FreePos s ret) (k : ℕ) :
    FreePos (clearSeqIdMap k s) ret :=
  fun t ht hmem => hfree t ht (tasks_clearSeqIdMap s k hmem)

theorem life_resubmit {ret : Option ℕ} (hfree : FreePos s ret) (type : TaskType) (c : HttpContext)
    (n : ℕ) : life (resubmit type c ret s) n =
      if n = c.nReqSeq then (life s n).retry c.nFailedTime ret else life s n := by
  rw [resubmit]
  split
  next hnone =>
    split
    next hn =>
      have hctx : (life s n).context = none := by rw [hn]; exact hnone
      rw [Life.retry, hctx]
    next => rfl
  next pCxt hsome =>
    rw [life_addTask (show FreePos (s.setRequest _ _) ret from hfree), life_setRequest]
    by_cases hn : n = c.nReqSeq
    · have hctx : (life s n).context = some pCxt := by rw [hn]; exact hsome
      rw [if_pos hn, if_pos hn, if_pos hn, Life.retry, hctx]
    · rw [if_neg hn, if_neg hn, if_neg hn]

/-- A request is sent again by either of two functions, with the same effect on its life. -/
theorem reReqUrl_eq {strUrl : List Char} (hurl : strUrl ≠ []) (c : HttpContext)
    (pArgument : Option (List ParamType)) (ret : Option ℕ) (s : State) :
    ∃ type, reReqUrl strUrl c pArgument ret s = resubmit type c ret (clearSeqIdMap c.nReqSeq s) := by
  cases pArgument <;> exact ⟨_, if_neg hurl⟩

theorem life_reReqUrl {strUrl : List Char} (hurl : strUrl ≠ []) {ret : Option ℕ}
    (hfree : FreePos s ret) (c : HttpContext) (pArgument : Option (List ParamType)) (n : ℕ) :
    life (reReqUrl strUrl c pArgument ret s) n =
      if n = c.nReqSeq then (life s n).unlink.retry c.nFailedTime ret
      else if shares s n c.nReqSeq then (life s n).stop else life s n := by
  obtain ⟨type, htype⟩ := reReqUrl_eq hurl c pArgument ret s
  rw [htype, life_resubmit (hfree.clear _), life_clearSeqIdMap]
  by_cases hn : n = c.nReqSeq
  · rw [if_pos hn, if_pos hn, if_pos hn]
  · rw [if_neg hn, if_neg hn, if_neg hn]

theorem reqUrl_eq {c : HttpContext} (hurl : c.strURL ≠ [])
    (hrep : ¬ (c.bAllowRepeated = false ∧ isExistUrl c.strURL s = true)) (ret : Option ℕ) :
    ∃ type, reqUrl c ret s = submit type c ret s := by
  rw [reqUrl, if_neg hurl, if_neg hrep]
  cases c.pArgument <;> exact ⟨_, rfl⟩

theorem life_reqUrl {ret : Option ℕ} (hfree : FreePos s ret) (c : HttpContext) (n : ℕ) :
    life (reqUrl c ret s) n =
      if n = c.nReqSeq ∧ ¬ (c.strURL = [] ∨ c.bAllowRepeated = false ∧ isExistUrl c.strURL s) then
        { life s n with context := some c }.start ret
      else life s n := by
  by_cases hurl : c.strURL = []
  · simp [reqUrl, hurl]
  · by_cases hrep : c.bAllowRepeated = false ∧ isExistUrl c.strURL s
    · rw [reqUrl, if_neg hurl, if_pos hrep, if_neg (fun h => h.2 (.inr hrep))]
    · obtain ⟨type, htype⟩ := reqUrl_eq hurl hrep ret
      rw [htype, submit, life_addTask (show FreePos (s.setRequest _ _) ret from hfree),
        life_setRequest]
      by_cases hn : n = c.nReqSeq
      · rw [if_pos hn, if_pos hn, if_pos ⟨hn, not_or.mpr ⟨hurl, hrep⟩⟩]
      · rw [if_neg hn, if_neg hn, if_neg (fun h => hn h.1)]

theorem url_of_repeated {c : HttpContext} (h : c.policy = .repeatedReq) : c.strURL ≠ [] := by
  intro hurl
  rw [HttpContext.policy, if_pos hurl] at h
  cases h

/-- The bodies of the callbacks keep the number and the URL, and give out copies of the context. -/
structure Copies (body : HttpContext → HttpContext × List HttpContext) : Prop where
  nReqSeq : ∀ c, (body c).1.nReqSeq = c.nReqSeq
  strURL : ∀ c, (body c).1.strURL = c.strURL
  copies : ∀ c, ∀ r ∈ (body c).2, r = (body c).1

theorem copies_onProcess (taskinfo : TaskInfo) (written : Bool) :
    Copies (·.onProcess taskinfo written) := by
  constructor <;> intro c <;> rw [HttpContext.onProcess]
  all_goals
    dsimp only [HttpContext.report]
    cases c.eReqType <;> cases written <;> simp [HttpContext.writeFailed]

theorem copies_onFinish (taskinfo : TaskInfo) (written : Bool) :
    Copies (·.onFinish taskinfo written) := by
  constructor <;> intro c <;> rw [HttpContext.onFinish]
  all_goals
    dsimp only [HttpContext.report]
    cases c.eReqType <;> cases written <;> simp [HttpContext.writeFailed]

theorem copies_onError (taskinfo : TaskInfo) : Copies (·.onError taskinfo) := by
  constructor <;> intro c <;> simp [HttpContext.onError, HttpContext.report]

theorem Copies.mem {body : HttpContext → HttpContext × List HttpContext} (hbody : Copies body)
    {c r : HttpContext} (hr : r ∈ (body c).2) : r.nReqSeq = c.nReqSeq ∧ r.strURL = c.strURL := by
  rw [hbody.copies c r hr]
  exact ⟨hbody.nReqSeq c, hbody.strURL c⟩

/-- Contexts are kept under their numbers. -/
def Keyed (s : State) : Prop := ∀ n, ∀ c ∈ s.m_mapRequest.lookup n, c.nReqSeq = n

theorem life_callback {body : HttpContext → HttpContext × List HttpContext} (hbody : Copies body)
    (hkeyed : Keyed s) (taskid n : ℕ) :
    life (callback body taskid s) n =
      if getSeqNo s taskid = some n then (life s n).callback body else life s n := by
  rw [callback]
  split
  next hnone => rw [hnone, if_neg (by simp)]
  next m hm =>
    rw [hm]
    split
    next hnone =>
      split
      next hn =>
        obtain rfl := Option.some.inj hn
        have hctx : (life s m).context = none := hnone
        rw [Life.callback, hctx]
      next => rfl
    next c hc =>
      have hseq : ∀ r ∈ (body c).2, r.nReqSeq = m :=
        fun r hr => (hbody.mem hr).1.trans (hkeyed m c hc)
      split
      next hn =>
        obtain rfl := Option.some.inj hn
        have hctx : (life s m).context = some c := hc
        have hout : (body c).2.filter (·.nReqSeq = m) = (body c).2 :=
          List.filter_eq_self.mpr fun r hr => by simpa using hseq r hr
        rw [Life.callback, hctx]
        refine Life.ext rfl ?_ rfl rfl ?_ rfl
        · simp [life, State.setRequest, lookup_setKey]
        · simp only [life, List.filter_append, hout]
      next hn =>
        have hnm : n ≠ m := fun h => hn (by rw [h])
        have hout : (body c).2.filter (·.nReqSeq = n) = [] :=
          List.filter_eq_nil_iff.mpr fun r hr => by simpa [hseq r hr] using Ne.symm hnm
        refine Life.ext rfl ?_ rfl rfl ?_ rfl
        · simp [life, State.setRequest, lookup_setKey, hnm]
        · simp only [life, List.filter_append, hout, List.append_nil]

/-- A place that is noted for a request leads to it and back. -/
def Linked (s : State) : Prop :=
  ∀ taskId n, s.m_mapTaskid2Seqno.lookup taskId = some n →
    s.m_mapSeqNo2TaskId.lookup n = some taskId

theorem life_removeTask (hlinked : Linked s) (taskid n : ℕ) :
    life (s.removeTask taskid) n =
      if s.m_mapTaskid2Seqno.lookup taskid = some n then (life s n).stop else life s n := by
  split
  next hmap =>
    refine Life.ext rfl rfl rfl ?_ rfl rfl
    simp [life, State.runs, State.removeTask, hlinked taskid n hmap, Life.stop]
  next hmap =>
    refine Life.ext rfl rfl rfl ?_ rfl rfl
    rw [life, life, Bool.eq_iff_iff, runs_iff, runs_iff]
    refine exists_congr fun u => and_congr_right fun _ => and_congr_right fun hu => ?_
    have hne : u ≠ taskid := by
      rintro rfl
      exact hmap hu
    simp [State.removeTask, hne]

theorem callback_maps (body : HttpContext → HttpContext × List HttpContext) (taskid : ℕ)
    (s : State) : (callback body taskid s).m_mapTaskid2Seqno = s.m_mapTaskid2Seqno ∧
      (callback body taskid s).m_mapSeqNo2TaskId = s.m_mapSeqNo2TaskId := by
  rw [callback]
  split
  · exact ⟨rfl, rfl⟩
  · split <;> exact ⟨rfl, rfl⟩

theorem getSeqNo_some {taskid : ℕ} (h : getSeqNo s taskid = some n) :
    s.m_mapTaskid2Seqno.lookup taskid = some n := by
  rw [getSeqNo, Option.filter_eq_some_iff] at h
  exact h.1

theorem life_ended {body : HttpContext → HttpContext × List HttpContext} (hbody : Copies body)
    (hkeyed : Keyed s) (hlinked : Linked s) (taskid n : ℕ) :
    life ((callback body taskid s).removeTask taskid) n =
      if getSeqNo s taskid = some n then ((life s n).callback body).stop
      else if s.m_mapTaskid2Seqno.lookup taskid = some n then (life s n).stop
      else life s n := by
  obtain ⟨hmap, hslot⟩ := callback_maps body taskid s
  have hlinked' : Linked (callback body taskid s) := by
    rw [Linked, hmap, hslot]
    exact hlinked
  rw [life_removeTask hlinked', hmap, life_callback hbody hkeyed]
  by_cases hseq : getSeqNo s taskid = some n
  · rw [if_pos (getSeqNo_some hseq), if_pos hseq, if_pos hseq]
  · rw [if_neg hseq, if_neg hseq]

theorem life_tail {c : HttpContext} {rest : List HttpContext} (hres : s.m_lstResult = c :: rest)
    (n : ℕ) : life { s with m_lstResult := rest } n =
      if n = c.nReqSeq then { life s n with results := (life s n).results.tail } else life s n := by
  split
  next hn => exact Life.ext rfl rfl rfl rfl (by simp [life, hres, hn]) rfl
  next hn => exact Life.ext rfl rfl rfl rfl (by simp [life, hres, Ne.symm hn]) rfl

/-- What a round of `ProcessGetResponse` does with the result it has taken. -/
def taken (uNum : ℕ) (ret : Option ℕ) (c : HttpContext) (s : State) : State :=
  match c.policy with
  | .invalidResp => s
  | .repeatedReq => reReqUrl c.strURL c.fail c.pArgument ret s
  | .successResp =>
    if uNum ≤ 10 ∧ c.last then deleteSeqNo c.nReqSeq (s.record (.parsed c))
    else s.record (.parsed c)
  | .error code =>
    if uNum ≤ 10 then
      deleteSeqNo c.nReqSeq (s.record (.event (errorEvent (s.desMId c.nReqSeq) c code)))
    else s

theorem getResponse_nil (hres : s.m_lstResult = []) (uNum : ℕ) (ret : Option ℕ) :
    getResponse uNum ret s = s.goto (.sendUrl 0) := by
  simp [getResponse, processResp, hres]

theorem getResponse_eq {c : HttpContext} {rest : List HttpContext} (hres : s.m_lstResult = c :: rest)
    (uNum : ℕ) (ret : Option ℕ) :
    ∃ main, getResponse uNum ret s = (taken uNum ret c { s with m_lstResult := rest }).goto main := by
  by_cases hnum : 10 < uNum
  · refine ⟨.sendUrl 0, ?_⟩
    have hnum' : ¬ uNum ≤ 10 := by omega
    cases hp : c.policy <;> simp [getResponse, processResp, taken, hres, hp, hnum, hnum']
  · have hnum' : uNum ≤ 10 := by omega
    cases hp : c.policy with
    | invalidResp =>
      exact ⟨.sendUrl 0, by simp [getResponse, processResp, taken, hres, hp]⟩
    | repeatedReq =>
      exact ⟨.getResponse (uNum + 1), by simp [getResponse, processResp, taken, hres, hp, hnum]⟩
    | successResp =>
      refine ⟨.getResponse (uNum + 1), ?_⟩
      by_cases hlast : c.last <;>
        simp [getResponse, processResp, taken, hres, hp, hnum, hnum', hlast]
    | error code =>
      exact ⟨.getResponse (uNum + 1),
        by simp [getResponse, processResp, taken, hres, hp, hnum, hnum']⟩

theorem life_record_delete (s : State) (e : Entry) (n : ℕ) :
    life (deleteSeqNo e.nReqSeq (s.record e)) n =
      if n = e.nReqSeq then ((life s n).record e).delete n
      else if shares s n e.nReqSeq then (life s n).stop
      else life s n := by
  rw [life_deleteSeqNo, life_record]
  by_cases hn : n = e.nReqSeq
  · rw [if_pos hn, if_pos hn.symm, if_pos hn]
  · rw [if_neg hn, if_neg (Ne.symm hn), if_neg hn]
    rfl

/-- Clearing the place of a request stops who has been given the same. -/
theorem life_taken {ret : Option ℕ} (hfree : FreePos s ret) (c : HttpContext) (uNum n : ℕ) :
    life (taken uNum ret c s) n =
      if n = c.nReqSeq then (life s n).answer n uNum ret (s.desMId n) c
      else if clears uNum c ∧ shares s n c.nReqSeq then (life s n).stop
      else life s n := by
  rw [taken, Life.answer, clears]
  cases hp : c.policy with
  | invalidResp => simp
  | repeatedReq =>
    dsimp only
    rw [life_reReqUrl (url_of_repeated hp) hfree]
    by_cases hshare : shares s n c.nReqSeq <;> simp [HttpContext.fail, hshare]
  | successResp =>
    dsimp only
    by_cases hdel : uNum ≤ 10 ∧ c.last
    · rw [if_pos hdel, if_pos hdel]
      refine (life_record_delete s (.parsed c) n).trans ?_
      by_cases hshare : shares s n c.nReqSeq <;> simp [hdel, Entry.nReqSeq, hshare]
    · rw [if_neg hdel, if_neg hdel, life_record]
      by_cases hn : n = c.nReqSeq
      · simp [hn, Entry.nReqSeq]
      · simp [hdel, hn, Ne.symm hn, Entry.nReqSeq]
  | error code =>
    dsimp only
    by_cases hnum : uNum ≤ 10
    · rw [if_pos hnum, if_pos hnum]
      refine (life_record_delete s (.event (errorEvent (s.desMId c.nReqSeq) c code)) n).trans ?_
      by_cases hn : n = c.nReqSeq
      · simp [hn, Entry.nReqSeq, errorEvent]
      · by_cases hshare : shares s n c.nReqSeq <;>
          simp [hn, hnum, Entry.nReqSeq, errorEvent, hshare]
    · rw [if_neg hnum, if_neg hnum]
      simp [hnum]

theorem life_pushUrl (r : Request) (s : State) (n : ℕ) :
    life (pushUrl r s) n = if n = s.nextSeq then (life s n).move n (.push r) else life s n := by
  split
  next hn =>
    refine Life.ext ?_ rfl rfl rfl rfl ?_
    · simp [life, pushUrl, Life.move, Life.record, Request.context, hn]
    · simp [life, pushUrl, Life.move, Life.record, Entry.nReqSeq, hn]
  next hn =>
    refine Life.ext ?_ rfl rfl rfl rfl ?_
    · simp [life, pushUrl, Request.context, Ne.symm hn]
    · simp [life, pushUrl, Entry.nReqSeq, Ne.symm hn]

theorem life_sendUrl {c : HttpContext} {rest : List HttpContext} {ret : Option ℕ}
    (hfree : FreePos s ret) (hqueue : s.m_vRequestQueue = c :: rest) (nNum n : ℕ) :
    life (sendUrl nNum ret s) n =
      if n = c.nReqSeq then
        (life s n).move n (.send (isExistUrl c.strURL { s with m_vRequestQueue := rest }) ret)
      else life s n := by
  rw [sendUrl, hqueue]
  dsimp only
  rw [life_goto, life_reqUrl (show FreePos { s with m_vRequestQueue := rest } ret from hfree)]
  by_cases hn : n = c.nReqSeq
  · have hwait : (life s n).waiting = c :: rest.filter (·.nReqSeq = n) := by
      simp [life, hqueue, hn]
    rw [if_pos hn, Life.move, hwait]
    dsimp only
    by_cases hsend : c.strURL = [] ∨ c.bAllowRepeated = false ∧
        isExistUrl c.strURL { s with m_vRequestQueue := rest } = true
    · rw [if_pos hsend, if_neg fun h => h.2 hsend]
      rfl
    · rw [if_neg hsend, if_pos ⟨hn, hsend⟩]
      rfl
  · rw [if_neg fun h => hn h.1, if_neg hn]
    exact Life.ext (by simp [life, hqueue, Ne.symm hn]) rfl rfl rfl rfl rfl

end Operations

/-- Every step of the module moves every life by itself. -/
theorem life_step {s s' : State} {a : Act} (hkeyed : Keyed s) (hlinked : Linked s)
    (h : step s a = some s') (n : ℕ) : life s' n = (life s n).move n (moveOf s n a) := by
  cases step_inv h with
  | pushUrl r =>
    rw [life_pushUrl, moveOf]
    split <;> rfl
  | cycleTrigged => rfl
  | @getResponse uNum ret hmain hfree =>
    rw [moveOf, hmain]
    cases hres : s.m_lstResult with
    | nil =>
      rw [getResponse_nil hres]
      rfl
    | cons c rest =>
      obtain ⟨main, hmain'⟩ := getResponse_eq hres uNum ret
      rw [hmain', life_goto,
        life_taken (show FreePos { s with m_lstResult := rest } ret from hfree), life_tail hres]
      dsimp only
      by_cases hn : n = c.nReqSeq
      · have hresults : (life s n).results = c :: rest.filter (·.nReqSeq = n) := by
          simp [life, hres, hn]
        rw [if_pos hn, if_pos hn, if_pos hn, Life.move, hresults]
        rfl
      · rw [if_neg hn, if_neg hn, if_neg hn]
        by_cases hlose : clears uNum c = true ∧ shares s n c.nReqSeq = true
        · rw [if_pos hlose]
          exact if_pos hlose
        · rw [if_neg hlose]
          exact if_neg hlose
  | sendUrl hmain hfree =>
    rw [moveOf]
    cases hqueue : s.m_vRequestQueue with
    | nil =>
      rw [sendUrl, hqueue]
      rfl
    | cons c rest =>
      rw [life_sendUrl hfree hqueue]
      dsimp only
      split <;> rfl
  | @process taskid taskinfo written =>
    rw [handleProcess, life_callback (copies_onProcess taskinfo written) hkeyed, moveOf]
    split <;> rfl
  | @finish taskid taskinfo written =>
    rw [handleFinish, life_ended (copies_onFinish taskinfo written) hkeyed hlinked, moveOf]
    split
    · rfl
    · split <;> rfl
  | @error taskid taskinfo =>
    rw [handleError, life_ended (copies_onError taskinfo) hkeyed hlinked, moveOf]
    split
    · rfl
    · split <;> rfl
  | cancelTask =>
    rw [life_cancelTask, moveOf]
    split
    · rfl
    · split <;> rfl

end UrlTraveler.Web
