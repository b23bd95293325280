import UrlTraveler.Transfer.Worker

/-! What a step of the worker can do to what the client sees.

        quiet     nothing
        called    a callback for a task that is not deleted
        removed   a task leaves the queue

    Of a task the client sees its id and whether it is deleted. -/

namespace UrlTraveler.Transfer
open Maps

/-- The id of a task, and whether it is deleted. -/
def TTask.tag (t : TTask) : ℕ × Bool := (t.id, t.del)

def State.tag (s : State) (i : ℕ) : Option (ℕ × Bool) := (s.taskQue i).map TTask.tag

/-- A callback after which the task is removed. -/
def Handler.final : Handler → Bool
  | .finish | .error => true
  | _ => false

def Pc.clearing : Pc → ℕ → Prop
  | .clear j _ _, i => i = j
  | _, _ => False

def Pc.cleaning : Pc → Prop
  | .cleanup _ | .done => True
  | _ => False

/-- Nothing that the client sees is different. -/
structure Same (s s' : State) : Prop where
  tag : s'.tag = s.tag
  history : s'.history = s.history
  stop : s'.stop = s.stop
  client : s'.client = s.client
  mgrStarted : s'.mgrStarted = s.mgrStarted
  count : s'.count = s.count
  maxPos : s'.maxPos = s.maxPos
  curPos : s'.curPos = s.curPos

/-! ### Tasks keep their tags -/

namespace TTask

@[simp] theorem tag_fail (t : TTask) (errcode : ErrTask) : (t.fail errcode).tag = t.tag := rfl

@[simp] theorem tag_checkTimeOut (t : TTask) (now : ℕ) : (t.checkTimeOut now).tag = t.tag := by
  rw [checkTimeOut]
  split <;> rfl

@[simp] theorem tag_onConnected (t : TTask) (now : ℕ) (ok : Bool) : (t.onConnected now ok).tag = t.tag := by
  rw [onConnected]
  split <;> rfl

@[simp] theorem tag_tryConnect (t : TTask) (now newfd : ℕ) (ret : ConnectRet) (check : Bool) :
    (t.tryConnect now newfd ret check).2.tag = t.tag := by
  rw [tryConnect]
  split
  · rfl
  · cases ret
    · exact tag_onConnected _ _ _
    all_goals rfl

@[simp] theorem tag_checkConnectTimeout (t : TTask) (now : ℕ) : (t.checkConnectTimeout now).2.tag = t.tag := by
  rw [checkConnectTimeout]
  split <;> rfl

@[simp] theorem tag_proxyAuth (t : TTask) (ok : Bool) : (t.proxyAuth ok).2.tag = t.tag := by
  rw [proxyAuth]
  cases ht : t.opts.proxy
  · rfl
  · rfl
  · rfl
  · rcases hs : t.socksInit with _ | _
    · rfl
    · cases ok <;> rfl

@[simp] theorem tag_tryAuth (t : TTask) (now : ℕ) (ok : Bool) : (t.tryAuth now ok).2.tag = t.tag := by
  have h := tag_proxyAuth t ok
  rw [tryAuth]
  rcases hp : t.proxyAuth ok with ⟨_ | _ | _ | _, t'⟩ <;> rw [hp] at h <;> exact h

@[simp] theorem tag_onAuthResp (t : TTask) (now : ℕ) (ret : AuthRet) : (t.onAuthResp now ret).2.tag = t.tag := by
  cases ret <;> rfl

@[simp] theorem tag_sendHttpReq (t : TTask) (now : ℕ) (build : Except BuildFail ℕ) (send : SendRet) :
    (t.sendHttpReq now build send).2.tag = t.tag := by
  cases build
  · rfl
  · cases send <;> rfl

@[simp] theorem tag_sendHttpReqContinue (t : TTask) (now : ℕ) (send : SendRet) :
    (t.sendHttpReqContinue now send).2.tag = t.tag := by
  cases send <;> rfl

@[simp] theorem tag_directRecvData (t : TTask) (needSize : ℤ) (ret : RecvRet) :
    (t.directRecvData needSize ret).2.tag = t.tag := by
  rcases ret with n | - | -
  · rw [directRecvData]
    split <;> rfl
  · rfl
  · rfl

@[simp] theorem tag_getRealData (t : TTask) (now : ℕ) (recv : RecvRet) :
    (t.getRealData now recv).2.tag = t.tag := by
  rw [getRealData]
  have h := tag_directRecvData t (if 0 < t.contentLength ∧ t.opts.task_type = .download ∧
    t.doneSize < t.contentLength then t.contentLength - t.doneSize else 0) recv
  rcases hr : t.directRecvData _ recv with ⟨_ | _ | _ | _ | _ | _ | _, t'⟩ <;> rw [hr] at h <;> exact h

@[simp] theorem tag_processHttpRespHead (t : TTask) (now : ℕ) (ret : HeadRet) :
    (t.processHttpRespHead now ret).2.tag = t.tag := by
  rcases ret with n | (_ | _) | ntlm | - | - | -
  · simp only [processHttpRespHead]
    split <;> rfl
  · rfl
  · rfl
  · simp only [processHttpRespHead]
    split <;> rfl
  all_goals rfl

@[simp] theorem tag_processHttpResp (t : TTask) (now : ℕ) (head : HeadRet) (recv : RecvRet) :
    (t.processHttpResp now head recv).2.tag = t.tag := by
  rw [processHttpResp]
  split
  · exact tag_getRealData t now recv
  · exact tag_processHttpRespHead t now head

@[simp] theorem tag_updateTaskInfo (t : TTask) : t.updateTaskInfo.tag = t.tag := by
  obtain ⟨d, c, h⟩ := t.updateTaskInfo_eq
  rw [h]
  rfl

end TTask

/-! ### Queues with the same tags -/

@[simp] theorem State.tag_put (s : State) (i : ℕ) (t : Option TTask) :
    (s.put i t).tag = Function.update s.tag i (t.map TTask.tag) := by
  funext j
  rcases eq_or_ne j i with rfl | hj
  · rw [Function.update_self, State.tag, State.put]
    dsimp only
    rw [Function.update_self]
  · rw [Function.update_of_ne hj, State.tag, State.put]
    dsimp only
    rw [Function.update_of_ne hj, State.tag]

@[simp] theorem State.taskQue_put (s : State) (i : ℕ) (t : Option TTask) : (s.put i t).taskQue i = t :=
  Function.update_self ..

theorem State.tag_of_taskQue {s : State} {i : ℕ} {t : TTask} (ht : s.taskQue i = some t) :
    s.tag i = some t.tag := by
  rw [State.tag, ht, Option.map_some]

namespace Same

variable {s s' s'' : State} {i : ℕ} {t t' : TTask}

theorem refl (s : State) : Same s s := ⟨rfl, rfl, rfl, rfl, rfl, rfl, rfl, rfl⟩

theorem trans (h : Same s s') (h' : Same s' s'') : Same s s'' :=
  ⟨h'.tag.trans h.tag, h'.history.trans h.history, h'.stop.trans h.stop, h'.client.trans h.client,
    h'.mgrStarted.trans h.mgrStarted, h'.count.trans h.count, h'.maxPos.trans h.maxPos,
    h'.curPos.trans h.curPos⟩

/-- The worker's own data: where it is, and the sockets it waits for. -/
theorem own (h : Same s s') (readfds writefds : Finset ℕ) (s_t_map : List (ℕ × ℕ)) (counts : Counts) (pc : Pc) :
    Same s { s' with readfds, writefds, s_t_map, counts, pc } :=
  ⟨h.tag, h.history, h.stop, h.client, h.mgrStarted, h.count, h.maxPos, h.curPos⟩

theorem put (h : Same s s') (ht : s.taskQue i = some t) (htag : t'.tag = t.tag) :
    Same s (s'.put i (some t')) := by
  refine ⟨?_, h.history, h.stop, h.client, h.mgrStarted, h.count, h.maxPos, h.curPos⟩
  rw [State.tag_put, h.tag, Option.map_some, htag, ← State.tag_of_taskQue ht, Function.update_eq_self]

theorem record (h : Same s s') (e : Event) : Same (s.record e) (s'.record e) :=
  ⟨h.tag, congrArg (· ++ [e]) h.history, h.stop, h.client, h.mgrStarted, h.count, h.maxPos, h.curPos⟩

theorem watchRead (h : Same s s') (t : TTask) : Same s (s'.watchRead t) := by
  rw [State.watchRead]
  cases t.fd
  · exact h
  · exact h.own ..

theorem watchWrite (h : Same s s') (t : TTask) : Same s (s'.watchWrite t) := by
  rw [State.watchWrite]
  cases t.fd
  · exact h
  · exact h.own ..

theorem mapSocket (h : Same s s') (i : ℕ) (t : TTask) : Same s (s'.mapSocket i t) := by
  rw [State.mapSocket]
  cases t.fd
  · exact h
  · exact h.own ..

/-! ### The switch of scanTaskQue -/

variable (e : Env) (ht : s.taskQue i = some t)
include ht

theorem scanConnect : Same s (s.scanConnect e i t) := by
  have htag := t.tag_tryConnect e.now e.newfd e.connect e.check
  rw [State.scanConnect]
  rcases hr : t.tryConnect e.now e.newfd e.connect e.check with ⟨ret, t'⟩
  rw [hr] at htag
  have h := (refl s).put ht htag
  rcases ret with - | - | - | - | - | -
  · exact h
  · exact h.mapSocket i t'
  · exact (h.mapSocket i t').watchWrite t'
  all_goals exact h

theorem scanConnectWait : Same s (s.scanConnectWait e i t) := by
  have htag := t.tag_checkConnectTimeout e.now
  rw [State.scanConnectWait]
  rcases hr : t.checkConnectTimeout e.now with ⟨timeout, t'⟩
  rw [hr] at htag
  have h := (refl s).put ht htag
  rcases timeout with _ | _
  · exact h
  · rcases t.fd with - | fd
    · exact h
    · exact h.own ..

theorem scanAuth : Same s (s.scanAuth e i t) := by
  have htag := t.tag_tryAuth e.now e.auth
  rw [State.scanAuth]
  rcases hr : t.tryAuth e.now e.auth with ⟨ret, t'⟩
  rw [hr] at htag
  have h := (refl s).put ht htag
  dsimp only
  split
  · exact h.watchRead t'
  · exact h

theorem scanSend : Same s (s.scanSend e i t) := by
  have htag := t.tag_sendHttpReq e.now e.build e.send
  rw [State.scanSend]
  rcases hr : t.sendHttpReq e.now e.build e.send with ⟨ret, t'⟩
  rw [hr] at htag
  have h := (refl s).put ht htag
  rcases ret with n | n | -
  · exact h.watchRead t'
  · exact h.watchWrite t'
  · exact h

/-- A task that is not deleted: the scan goes on, or a callback is next. -/
theorem scanTask (remain : ℕ) (c : Counts) :
    Same s (s.scanTask e i t remain c) ∧ ∃ remain' c', (s.scanTask e i t remain c).pc = .scan (i + 1) remain' c' ∨
      ∃ h, (s.scanTask e i t remain c).pc = .call h i remain' c' := by
  rw [State.scanTask]
  cases t.taskState
  case idle =>
    dsimp only
    split
    · exact ⟨((refl s).put ht (by rfl)).own .., _, _, .inl rfl⟩
    · exact ⟨(refl s).own .., _, _, .inl rfl⟩
  case connect => exact ⟨(scanConnect e ht).own .., _, _, .inl rfl⟩
  case connectWait => exact ⟨(scanConnectWait e ht).own .., _, _, .inl rfl⟩
  case auth => exact ⟨(scanAuth e ht).own .., _, _, .inl rfl⟩
  case start =>
    dsimp only
    split
    · exact ⟨((refl s).put ht (t.tag_fail _)).own .., _, _, .inl rfl⟩
    · split
      · exact ⟨(scanSend e ht).own .., _, _, .inl rfl⟩
      · refine ⟨((refl s).put ht t.tag_updateTaskInfo).own .., remain, { c with starting := c.starting + 1 }, ?_⟩
        split
        · exact .inr ⟨_, rfl⟩
        · exact .inl rfl
  case running =>
    refine ⟨((refl s).put ht t.tag_updateTaskInfo).own .., remain, { c with running := c.running + 1 }, ?_⟩
    dsimp only
    split
    · exact .inr ⟨_, rfl⟩
    · exact .inl rfl
  case unknown =>
    exact ⟨((refl s).put ht (by exact TTask.tag_updateTaskInfo _)).own .., _, _, .inr ⟨_, rfl⟩⟩
  all_goals exact ⟨((refl s).put ht t.tag_updateTaskInfo).own .., _, _, .inr ⟨_, rfl⟩⟩

end Same

/-! ### The effect of a step -/

/-- What a step of the worker does to the tasks that the client sees and to the history. -/
inductive Effect (s s' : State) : Prop
  | quiet : Same s s' → (∀ i, s'.pc.clearing i → ∃ id, s.tag i = some (id, true)) →
      (∀ i, s.pc.clearing i → s.tag i = none) →
      (s'.pc.cleaning → s.stop = true ∨ s.pc.cleaning) → Effect s s'
  | called (h : Handler) (i : ℕ) (t : TTask) : Same (s.record (.called h i t)) s' →
      s.tag i = some (t.id, false) → (∀ j, ¬ s.pc.clearing j) →
      (∀ j, s'.pc.clearing j ↔ h.final = true ∧ j = i) → ¬ s'.pc.cleaning → Effect s s'
  | removed (i id : ℕ) (del : Bool) : Same ((s.put i none).record (.removed i id)) s' →
      s.tag i = some (id, del) → (s.pc.clearing i ∨ s.pc.cleaning) →
      (∀ j, ¬ s'.pc.clearing j) → (s'.pc.cleaning → s.pc.cleaning) → Effect s s'

namespace State

variable {s : State}

theorem scanStep_effect (e : Env) (i remain : ℕ) (c : Counts) (hpc : s.pc = .scan i remain c) :
    Effect s (s.scanStep e i remain c) := by
  have hnone : ∀ j, ¬ s.pc.clearing j := fun j => by rw [hpc]; exact id
  rw [scanStep]
  split
  · exact .quiet ((Same.refl s).own ..) (fun _ => False.elim) (fun j hj => (hnone j hj).elim) False.elim
  split
  · exact .quiet ((Same.refl s).own ..) (fun _ => False.elim) (fun j hj => (hnone j hj).elim) False.elim
  rcases ht : s.taskQue i with - | t
  · exact .quiet ((Same.refl s).own ..) (fun _ => False.elim) (fun j hj => (hnone j hj).elim) False.elim
  · dsimp only
    have htag : (if t.taskState = .idle then t else t.checkTimeOut e.now).tag = t.tag := by
      split
      · rfl
      · exact t.tag_checkTimeOut e.now
    generalize (if t.taskState = .idle then t else t.checkTimeOut e.now) = t' at htag ⊢
    have hput := (Same.refl s).put ht htag
    split
    · refine .quiet (hput.own ..) ?_ (fun j hj => (hnone j hj).elim) False.elim
      rintro j rfl
      refine ⟨t'.id, (tag_of_taskQue ht).trans ?_⟩
      rw [← htag, TTask.tag, ‹t'.del = true›]
    · obtain ⟨hsame, remain', c', hgo | ⟨h, hcall⟩⟩ := Same.scanTask e (s.taskQue_put i (some t')) remain c
      · refine .quiet (hput.trans hsame) ?_ (fun j hj => (hnone j hj).elim) ?_ <;> rw [hgo]
        · exact fun _ => False.elim
        · exact False.elim
      · refine .quiet (hput.trans hsame) ?_ (fun j hj => (hnone j hj).elim) ?_ <;> rw [hcall]
        · exact fun _ => False.elim
        · exact False.elim

theorem callStep_effect (h : Handler) (i remain : ℕ) (c : Counts) (hpc : s.pc = .call h i remain c) :
    Effect s (s.callStep h i remain c) := by
  have hnone : ∀ j, ¬ s.pc.clearing j := fun j => by rw [hpc]; exact id
  rw [callStep]
  rcases ht : s.taskQue i with - | t
  · exact .quiet ((Same.refl s).own ..) (fun _ => False.elim) (fun j hj => (hnone j hj).elim) False.elim
  · have htag := tag_of_taskQue ht
    have hclean : (if t.opts.dataClean then { t with respSize := 0 } else t).tag = t.tag := by split <;> rfl
    by_cases hdel : t.del = true
    · have hgone : s.tag i = some (t.id, true) := htag.trans (by rw [TTask.tag, hdel])
      dsimp only
      rw [if_pos hdel]
      cases h <;> dsimp only
      case process =>
        exact .quiet (((Same.refl s).put ht hclean).own ..) (fun _ => False.elim)
          (fun j hj => (hnone j hj).elim) False.elim
      case finish | error =>
        refine .quiet ((Same.refl s).own ..) ?_ (fun j hj => (hnone j hj).elim) False.elim
        rintro j rfl
        exact ⟨t.id, hgone⟩
      all_goals
        exact .quiet ((Same.refl s).own ..) (fun _ => False.elim) (fun j hj => (hnone j hj).elim) False.elim
    · have hcalled := Same.refl (s.record (.called h i t))
      have hrec : (s.record (.called h i t)).taskQue i = some t := ht
      have hlive : s.tag i = some (t.id, false) := htag.trans (by rw [TTask.tag, Bool.eq_false_iff.mpr hdel])
      dsimp only
      rw [if_neg hdel]
      cases h <;> dsimp only
      case process =>
        exact .called .process i t ((hcalled.put hrec hclean).own ..) hlive hnone
          (fun j => ⟨False.elim, fun hj => nomatch hj.1⟩) id
      case finish | error =>
        exact .called _ i t (hcalled.own ..) hlive hnone (fun j => ⟨fun hj => ⟨rfl, hj⟩, fun hj => hj.2⟩) id
      all_goals
        exact .called _ i t (hcalled.own ..) hlive hnone (fun j => ⟨False.elim, fun hj => nomatch hj.1⟩) id

/-- `clearTaskInfo` of a slot that is taken. -/
theorem clearTaskInfo_some {i : ℕ} {t : TTask} (ht : s.taskQue i = some t) :
    Same ((s.put i none).record (.removed i t.id)) (s.clearTaskInfo i) := by
  rw [clearTaskInfo, ht]
  dsimp only
  cases t.fd
  · exact Same.refl _
  · exact (Same.refl _).own ..

theorem clearTaskInfo_none {i : ℕ} (ht : s.taskQue i = none) : s.clearTaskInfo i = s := by
  rw [clearTaskInfo, ht]

theorem clearStep_effect (i remain : ℕ) (c : Counts) (hpc : s.pc = .clear i remain c) :
    Effect s { s.clearTaskInfo i with pc := .scan (i + 1) remain c } := by
  have hclear : ∀ j, s.pc.clearing j ↔ j = i := fun j => by rw [hpc]; exact Iff.rfl
  rcases ht : s.taskQue i with - | t
  · rw [clearTaskInfo_none ht]
    refine .quiet ((Same.refl s).own ..) (fun _ => False.elim) (fun j hj => ?_) False.elim
    rw [(hclear j).mp hj, tag, ht, Option.map_none]
  · exact .removed i t.id t.del ((clearTaskInfo_some ht).own ..) (tag_of_taskQue ht)
      (.inl ((hclear i).mpr rfl)) (fun _ => id) False.elim

theorem cleanupStep_effect (i : ℕ) (hpc : s.pc = .cleanup i) : Effect s (s.cleanupStep i) := by
  have hnone : ∀ j, ¬ s.pc.clearing j := fun j => by rw [hpc]; exact id
  have hcleaning : s.pc.cleaning := by rw [hpc]; trivial
  rw [cleanupStep]
  split
  · rcases ht : s.taskQue i with - | t
    · rw [clearTaskInfo_none ht]
      exact .quiet ((Same.refl s).own ..) (fun _ => False.elim) (fun j hj => (hnone j hj).elim)
        fun _ => .inr hcleaning
    · exact .removed i t.id t.del ((clearTaskInfo_some ht).own ..) (tag_of_taskQue ht) (.inr hcleaning)
        (fun _ => id) fun _ => hcleaning
  · exact .quiet ((Same.refl s).own ..) (fun _ => False.elim) (fun j hj => (hnone j hj).elim)
      fun _ => .inr hcleaning

/-! ### scanIO -/

theorem loopEnd_effect {s' : State} (hs' : Same s s') (hnone : ∀ j, ¬ s.pc.clearing j) :
    Effect s s'.loopEnd := by
  rw [loopEnd]
  split
  · exact .quiet (hs'.own ..) (fun _ => False.elim) (fun j hj => (hnone j hj).elim)
      fun _ => .inl (hs'.stop ▸ ‹s'.stop = true›)
  · exact .quiet (hs'.own ..) (fun _ => False.elim) (fun j hj => (hnone j hj).elim) False.elim

theorem selectStep_effect (e : Env) (hpc : s.pc = .select) : Effect s (s.selectStep e) := by
  have hnone : ∀ j, ¬ s.pc.clearing j := fun j => by rw [hpc]; exact id
  rw [selectStep]
  split
  · exact loopEnd_effect (Same.refl s) hnone
  · exact .quiet ((Same.refl s).own ..) (fun _ => False.elim) (fun j hj => (hnone j hj).elim) False.elim

@[simp] theorem taskQue_watchRead (s : State) (t : TTask) : (s.watchRead t).taskQue = s.taskQue := by
  rw [watchRead]
  split <;> rfl

theorem ioWrite_same (e : Env) (sockfd taskid : ℕ) (t : TTask) (delete_map : List (ℕ × ℕ))
    (ht : s.taskQue taskid = some t) :
    let w := s.ioWrite e sockfd taskid t delete_map
    Same s w.1 ∧ w.1.taskQue taskid = some w.2.1 ∧ w.2.1.tag = t.tag := by
  have htag := t.tag_sendHttpReqContinue e.now e.send
  rw [ioWrite]
  rcases hr : t.sendHttpReqContinue e.now e.send with ⟨ret, t'⟩
  rw [hr] at htag
  have h := (Same.refl s).put ht htag
  rcases ret with n | n | -
  · refine ⟨(h.watchRead t').own .., ?_, htag⟩
    dsimp only
    rw [taskQue_watchRead, taskQue_put]
  · exact ⟨h, s.taskQue_put .., htag⟩
  · exact ⟨h.own .., s.taskQue_put .., htag⟩

/-- Reading an answer changes nothing that the client sees, or it tells that the head is there. -/
theorem ioRead_same (e : Env) (sockfd taskid : ℕ) (t : TTask) (delete_map : List (ℕ × ℕ))
    (ht : s.taskQue taskid = some t) :
    let r := s.ioRead e sockfd taskid t delete_map
    Same s r.1 ∨ ∃ t', t'.tag = (t.id, false) ∧ s.tag taskid = some (t.id, false) ∧
      Same (s.record (.called .headcomplete taskid t')) r.1 := by
  rw [ioRead]
  dsimp only
  split
  · have htag := t.tag_onAuthResp e.now e.authResp
    rcases hr : t.onAuthResp e.now e.authResp with ⟨again, t'⟩
    rw [hr] at htag
    have h := (Same.refl s).put ht htag
    rcases again with _ | _
    · exact .inl (h.own ..)
    · exact .inl h
  · have htag := t.tag_processHttpResp e.now e.head e.recv
    rcases hr : t.processHttpResp e.now e.head e.recv with ⟨ret, t'⟩
    rw [hr] at htag
    dsimp only
    split
    · split
      · rename_i htell
        have hdel : t'.del = false := by simpa using (Bool.and_eq_true_iff.mp (Bool.and_eq_true_iff.mp htell).1).1
        have hlive : t'.updateTaskInfo.tag = (t.id, false) := by
          rw [TTask.tag_updateTaskInfo, TTask.tag, hdel, show t'.id = t.id from congrArg Prod.fst htag]
        refine .inr ⟨t'.updateTaskInfo, hlive, ?_, ?_⟩
        · rw [tag_of_taskQue ht, ← htag, ← t'.tag_updateTaskInfo, hlive]
        · exact ((Same.refl s).put ht (by exact t'.tag_updateTaskInfo.trans htag)).record _
      · exact .inl ((Same.refl s).put ht htag)
    · exact .inl (((Same.refl s).put ht htag).own ..)

theorem ioTask_same (e : Env) (sockfd taskid : ℕ) (t : TTask) (tmpread tmpwrite : Finset ℕ)
    (delete_map : List (ℕ × ℕ)) (ht : s.taskQue taskid = some t) :
    let r := s.ioTask e sockfd taskid t tmpread tmpwrite delete_map
    Same s r.1 ∨ ∃ t', t'.tag = (t.id, false) ∧ s.tag taskid = some (t.id, false) ∧
      Same (s.record (.called .headcomplete taskid t')) r.1 := by
  rw [ioTask]
  split
  · exact .inl (Same.refl s)
  split
  · exact .inl (((Same.refl s).put ht (t.tag_onConnected e.now e.check)).own ..)
  by_cases hwrite : sockfd ∈ tmpwrite
  · obtain ⟨hs, ht', htag⟩ := ioWrite_same e sockfd taskid t delete_map ht
    rw [if_pos hwrite]
    rcases hw : s.ioWrite e sockfd taskid t delete_map with ⟨s', t', delete_map'⟩
    rw [hw] at hs ht' htag
    dsimp only at hs ht' htag ⊢
    split
    · rcases ioRead_same e sockfd taskid t' delete_map' ht' with h | ⟨t'', htag', hlive, h⟩
      · exact .inl (hs.trans h)
      · rw [show t'.id = t.id from congrArg Prod.fst htag] at htag' hlive
        exact .inr ⟨t'', htag', hs.tag ▸ hlive, (hs.record _).trans h⟩
    · exact .inl hs
  · rw [if_neg hwrite]
    dsimp only
    split
    · exact ioRead_same e sockfd taskid t delete_map ht
    · exact .inl (Same.refl s)

theorem ioStep_effect {s' : State} (e : Env) (it : List (ℕ × ℕ)) (tmpread tmpwrite : Finset ℕ)
    (delete_map : List (ℕ × ℕ)) (hpc : s.pc = .io it tmpread tmpwrite delete_map)
    (h : s.ioStep e it tmpread tmpwrite delete_map = some s') : Effect s s' := by
  have hnone : ∀ j, ¬ s.pc.clearing j := fun j => by rw [hpc]; exact id
  rcases it with - | ⟨⟨sockfd, taskid⟩, it⟩
  · cases h
    exact loopEnd_effect ((Same.refl s).own ..) hnone
  · rw [ioStep] at h
    split at h
    · cases h
      exact loopEnd_effect (Same.refl s) hnone
    · rcases ht : s.taskQue taskid with - | t <;> rw [ht] at h
      · cases h
      · have hio := ioTask_same e sockfd taskid t tmpread tmpwrite delete_map ht
        rcases s.ioTask e sockfd taskid t tmpread tmpwrite delete_map with ⟨s₁, delete_map'⟩
        cases h
        rcases hio with hs | ⟨t', htag, hlive, hs⟩
        · exact .quiet (hs.own ..) (fun _ => False.elim) (fun j hj => (hnone j hj).elim) False.elim
        · refine .called .headcomplete taskid t' (hs.own ..) ?_ hnone (fun j => ⟨False.elim, fun hj => nomatch hj.1⟩) id
          rw [hlive, show t'.id = t.id from congrArg Prod.fst htag]

/-- Every step of the worker has one of the effects. -/
theorem workerStep_effect {s' : State} (e : Env) (h : s.workerStep e = some s') : Effect s s' := by
  rw [workerStep] at h
  rcases hpc : s.pc with ⟨i, remain, c⟩ | ⟨hd, i, remain, c⟩ | ⟨i, remain, c⟩ | - | ⟨it, tr, tw, dm⟩ | i | - <;>
    rw [hpc] at h
  · cases h
    exact scanStep_effect e i remain c hpc
  · cases h
    exact callStep_effect hd i remain c hpc
  · cases h
    exact clearStep_effect i remain c hpc
  · cases h
    exact selectStep_effect e hpc
  · exact ioStep_effect e it tr tw dm hpc h
  · cases h
    exact cleanupStep_effect i hpc
  · cases h
    exact .quiet (Same.refl s) (fun j hj => by rw [hpc] at hj; exact hj.elim) (fun j hj => by rw [hpc] at hj; exact hj.elim)
      fun hj => .inr hj

/-! ### The client's steps -/

theorem findTaskPosLoop_some {taskQue : ℕ → Option TTask} {i j : ℕ} (hi : i < maxTaskQueSize) (fuel : ℕ)
    (h : findTaskPosLoop taskQue fuel i = some j) : j < maxTaskQueSize ∧ taskQue j = none := by
  induction fuel generalizing i with
  | zero => cases h
  | succ fuel ih =>
    rw [findTaskPosLoop] at h
    split at h
    · cases h
      exact ⟨hi, Option.isNone_iff_eq_none.mp ‹_›⟩
    · refine ih ?_ h
      split <;> omega

end State

/-- What one step of the client does. -/
inductive Call (s s' : State) : Prop
  | refused : s' = s → Call s s'
  | added (i : ℕ) (o : Options) (now curPos : ℕ) : i < maxTaskQueSize → s.taskQue i = none →
      s.client = .outside → s.mgrStarted = true → curPos < maxTaskQueSize →
      s' = { (s.put i (some (.create s.count o now))).record (.added i s.count) with
        curPos, maxPos := max s.maxPos i, count := s.count + 1 } → Call s s'
  | cancelled (i : ℕ) (t : TTask) (client : Client) : i < maxTaskQueSize → s.taskQue i = some t →
      client = s.client ∨ (∃ stopping, s.client = .clearing i stopping ∧ client = .clearing (i + 1) stopping) →
      s' = { (s.put i (some { t with del := true })).record (.cancelled i t.id) with client } → Call s s'
  | skipped (i : ℕ) (stopping : Bool) : s.client = .clearing i stopping → s.taskQue i = none →
      s' = { s with client := .clearing (i + 1) stopping } → Call s s'
  | begun (stopping : Bool) : s.client = .outside → s.mgrStarted = true →
      s' = { s with client := .clearing 0 stopping } → Call s s'
  | cleared (i : ℕ) : s.client = .clearing i false → maxTaskQueSize ≤ i →
      s' = ({ s with client := .outside }).record (.cleared s.count) → Call s s'
  | stopped (i : ℕ) : s.client = .clearing i true → maxTaskQueSize ≤ i →
      s' = ({ ({ s with client := .outside }).record (.cleared s.count) with
        stop := true, mgrStarted := false }).record .stopped → Call s s'

namespace State

variable {s : State}

theorem addTask_call (o : Options) (now : ℕ) (hcur : s.curPos < maxTaskQueSize) (hout : s.client = .outside) :
    Call s (s.addTask o now) := by
  rw [addTask]
  split
  · rw [findTaskPos]
    rcases hloop : findTaskPosLoop s.taskQue maxTaskQueSize s.curPos with - | i
    · exact .refused rfl
    · obtain ⟨hi, hfree⟩ := findTaskPosLoop_some hcur _ hloop
      exact .added i o now ((i + 1) % maxTaskQueSize) hi hfree hout ‹_› (Nat.mod_lt _ (by decide)) rfl
  · exact .refused rfl

theorem cancelSlot_call (pos : ℕ) (hpos : pos < maxTaskQueSize) : Call s (s.cancelSlot pos) := by
  rw [cancelSlot]
  rcases ht : s.taskQue pos with - | t
  · exact .refused rfl
  · exact .cancelled pos t s.client hpos ht (.inl rfl) rfl

theorem clientStep_call : Call s s.clientStep := by
  rw [clientStep]
  rcases hclient : s.client with - | ⟨i, stopping⟩
  · exact .refused rfl
  · dsimp only
    split
    · rw [cancelSlot]
      rcases ht : s.taskQue i with - | t
      · exact .skipped i stopping hclient ht rfl
      · exact .cancelled i t _ ‹_› ht (.inr ⟨stopping, hclient, rfl⟩) rfl
    · rcases stopping with _ | _
      · exact .cleared i hclient (Nat.le_of_not_lt ‹_›) rfl
      · exact .stopped i hclient (Nat.le_of_not_lt ‹_›) rfl

end State

/-- Every step is one of the worker's or one of the client's. -/
theorem step_cases {s s' : State} {a : Act} (hcur : s.curPos < maxTaskQueSize) (h : step s a = some s') :
    (∃ e, a = .worker e ∧ s.workerStep e = some s') ∨ Call s s' := by
  rcases a with ⟨o, now⟩ | pos | - | - | - | e
  · obtain ⟨hout, h⟩ := Option.ite_none_right_eq_some.mp h
    cases h
    exact .inr (State.addTask_call o now hcur hout)
  · obtain ⟨⟨-, hpos⟩, h⟩ := Option.ite_none_right_eq_some.mp h
    cases h
    split
    · exact .inr (State.cancelSlot_call pos hpos)
    · exact .inr (.refused rfl)
  · obtain ⟨hout, h⟩ := Option.ite_none_right_eq_some.mp h
    cases h
    split
    · exact .inr (.begun false hout ‹_› rfl)
    · exact .inr (.refused rfl)
  · obtain ⟨hout, h⟩ := Option.ite_none_right_eq_some.mp h
    cases h
    split
    · exact .inr (.begun true hout ‹_› rfl)
    · exact .inr (.refused rfl)
  · cases h
    exact .inr State.clientStep_call
  · exact .inl ⟨e, rfl, h⟩

end UrlTraveler.Transfer
