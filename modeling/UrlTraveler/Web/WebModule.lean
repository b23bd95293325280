import UrlTraveler.Schemes.Maps
import UrlTraveler.Schemes.Runs

/-! `WebModule`, `CRequestManager`, `CHttpClient` and the callbacks of the transfer manager.

        PushUrl ──▶ m_vRequestQueue ──ReqUrl──▶ addTask ──▶ taskQue
                                        ▲                     │ callbacks, Cleanup
                                        │ ReReqUrl            ▼
          parser, error events ◀── ProcessResp ◀──────── m_lstResult

    The main thread runs `ProcessGetResponse` and `ProcessSendUrl` in every cycle, the thread of the
    transfer manager runs the callbacks; they meet between any two rounds of the loops. A task is
    known by its place in `taskQue`, which is given to another task once it has ended. -/

namespace UrlTraveler.Web
open Maps Runs

/-! ### Contexts -/

inductive RequestType where
  | onceBuffer
  | fragBuffer
  | onceFile
  deriving DecidableEq

/-- `uResult`. -/
inductive Result where
  | success
  | failed
  deriving DecidableEq

/-- The type of a parameter of a POST request. -/
inductive ParamType where
  | text
  | binary
  | filename
  deriving DecidableEq

inductive TaskType where
  | download
  | upload
  | query
  deriving DecidableEq

/-- `POST_PARAMS::is_uploadtype`, which decides what task a POST request is. -/
def postType (args : List ParamType) : TaskType :=
  if args.any fun t => t = .filename ∨ t = .binary then .upload else .query

structure HttpContext where
  nEventValue : BitVec 32 := 0
  strURL : List Char := []
  eReqType : RequestType := .onceBuffer
  pArgument : Option (List ParamType) := none
  bAllowRepeated : Bool := true
  uParam2 : ℕ := 0
  nReqSeq : ℕ := 0
  nFailedTime : ℕ := 0
  uResult : Result := .success
  nErrorCode : ℕ := 0
  nHttpCode : ℕ := 200
  strContentData : List UInt8 := []
  deriving DecidableEq

/-- What a callback reads of its `TaskInfo`. -/
structure TaskInfo where
  httpCode : ℕ := 200
  errcode : ℕ := 0
  respData : List UInt8 := []
  deriving DecidableEq

def errTaskWriteFileError : ℕ := 35

/-- `uOpPolicy`: `INVALID_RESP`, `REPEATED_REQ`, `SUCCESS_RESP`, or a `WEB_RET_` code. -/
inductive OpPolicy where
  | invalidResp
  | repeatedReq
  | successResp
  | error (code : ℕ)
  deriving DecidableEq

def webRetNetErrorTimeout : ℕ := 110
def webRetCommonWriteFileError : ℕ := 231

def getRetCodeByStatus : ℕ → ℕ
  | 200 => 0
  | 401 => 203
  | 403 => 202
  | 404 => 200
  | 405 => 201
  | 500 => 204
  | 407 => 207
  | 501 => 206
  | 503 => 205
  | _ => 230

/-- `++nFailedTime` of a `uint8`. -/
def HttpContext.fail (c : HttpContext) : HttpContext :=
  { c with nFailedTime := (c.nFailedTime + 1) % 256 }

/-- What `ProcessResp` decides about a result. -/
def HttpContext.policy (c : HttpContext) : OpPolicy :=
  if c.strURL = [] then .invalidResp
  else if c.uResult = .failed then
    if c.nErrorCode ≠ errTaskWriteFileError then
      if c.fail.nFailedTime < 3 then .repeatedReq else .error webRetNetErrorTimeout
    else .error webRetCommonWriteFileError
  else if c.nHttpCode ≠ 200 ∧ c.nErrorCode ≠ 0 then .error (getRetCodeByStatus c.nHttpCode)
  else .successResp

/-- The last result of its request, when it is a success. -/
def HttpContext.last (c : HttpContext) : Prop := c.eReqType = .fragBuffer → c.uParam2 = 1

instance (c : HttpContext) : Decidable c.last :=
  inferInstanceAs (Decidable (c.eReqType = .fragBuffer → c.uParam2 = 1))

/-- What the callbacks write first. -/
def HttpContext.report (uResult : Result) (taskinfo : TaskInfo) (c : HttpContext) : HttpContext :=
  { c with uResult := uResult, nHttpCode := taskinfo.httpCode, nErrorCode := taskinfo.errcode }

/-- After a `WriteFile` that failed. -/
def HttpContext.writeFailed (c : HttpContext) : HttpContext :=
  { c with uResult := .failed, nErrorCode := errTaskWriteFileError }

/-- The body of `handle_process`: the context, and the copies that `Cleanup` puts in the list of
    results. `written` is what `WriteFile` returned. -/
def HttpContext.onProcess (taskinfo : TaskInfo) (written : Bool) (c : HttpContext) :
    HttpContext × List HttpContext :=
  let c := c.report .success taskinfo
  match c.eReqType with
  | .onceFile => if written then (c, []) else (c.writeFailed, [c.writeFailed])
  | .fragBuffer =>
    let c := { c with strContentData := taskinfo.respData }
    (c, [c])
  | .onceBuffer => (c, [])

/-- The body of `handle_finish`. After a write that failed the context is put in the list twice. -/
def HttpContext.onFinish (taskinfo : TaskInfo) (written : Bool) (c : HttpContext) :
    HttpContext × List HttpContext :=
  let c := c.report .success taskinfo
  match c.eReqType with
  | .onceFile => if written then (c, [c]) else (c.writeFailed, [c.writeFailed, c.writeFailed])
  | .fragBuffer | .onceBuffer =>
    let c := { c with strContentData := taskinfo.respData, uParam2 := 1 }
    (c, [c])

/-- The body of `handle_error`. -/
def HttpContext.onError (taskinfo : TaskInfo) (c : HttpContext) : HttpContext × List HttpContext :=
  let c := c.report .failed taskinfo
  let c := { c with strContentData := c.strContentData ++ taskinfo.respData }
  (c, [c])

/-! ### The module -/

def serviceValueWebBegin : BitVec 32 := 0x3000A001
def eventValueWebBegin : BitVec 32 := 0x1000A001
def moduleIdInvalid : BitVec 16 := 0xFFFF

/-- The error event of `ProcessGetResponse`. -/
structure Event where
  eventValue : BitVec 32
  param0 : ℕ
  param2 : ℕ
  desMId : BitVec 16
  deriving DecidableEq

/-- What happened to a request; `parsed` is a call of `ParseResponse`. -/
inductive Entry where
  | pushed (nReqSeq : ℕ)
  | cancelled (nReqSeq : ℕ)
  | parsed (context : HttpContext)
  | event (e : Event)
  | deleted (nReqSeq : ℕ)
  deriving DecidableEq

def Entry.nReqSeq : Entry → ℕ
  | .pushed nReqSeq | .cancelled nReqSeq | .deleted nReqSeq => nReqSeq
  | .parsed context => context.nReqSeq
  | .event e => e.param2

/-- The response was handed to the parser, or an error event was pushed. -/
def Entry.replies : Entry → Bool
  | .parsed _ | .event _ => true
  | .pushed _ | .cancelled _ | .deleted _ => false

/-- Where the main thread is: the counter of the loop it is in. -/
inductive Main where
  | idle
  | getResponse (uNum : ℕ)
  | sendUrl (nNum : ℕ)
  deriving DecidableEq

/-- The members of the three classes; `tasks` has the places of the tasks that are in `taskQue` and
    not marked `del`, `types` the type of the last task at each place, and `log` records what
    happened. -/
structure State where
  m_nReqSeq : ℕ := 100
  m_vRequestQueue : List HttpContext := []
  m_mapRequest : List (ℕ × HttpContext) := []
  m_mapTaskid2Seqno : List (ℕ × ℕ) := []
  m_mapSeqNo2TaskId : List (ℕ × ℕ) := []
  m_lstResult : List HttpContext := []
  m_mapSeqNo2ModuleId : List (ℕ × BitVec 16) := []
  tasks : List ℕ := []
  types : List (ℕ × TaskType) := []
  main : Main := .idle
  log : List Entry := []

/-- The arguments of `PushUrl`, and the module that asks. -/
structure Request where
  nEventValue : BitVec 32
  strUrl : List Char
  eReqType : RequestType := .onceBuffer
  pArgument : Option (List ParamType) := none
  bAllowRepeated : Bool := true
  srcMId : BitVec 16

/-- `++m_nReqSeq`. -/
def State.nextSeq (s : State) : ℕ := (s.m_nReqSeq + 1) % 2 ^ 32

def Request.context (r : Request) (nReqSeq : ℕ) : HttpContext where
  nEventValue := r.nEventValue
  strURL := r.strUrl
  eReqType := r.eReqType
  pArgument := r.pArgument
  bAllowRepeated := r.bAllowRepeated
  nReqSeq := nReqSeq

def pushUrl (r : Request) (s : State) : State :=
  { s with
    m_nReqSeq := s.nextSeq
    m_vRequestQueue := s.m_vRequestQueue ++ [r.context s.nextSeq]
    m_mapSeqNo2ModuleId :=
      if s.nextSeq ≠ 0 then setKey s.m_mapSeqNo2ModuleId s.nextSeq r.srcMId
      else s.m_mapSeqNo2ModuleId
    log := s.log ++ [.pushed s.nextSeq] }

/-! ### `CHttpClient` -/

/-- `GetSeqNo` returns an `int32`, and -1 where there is no such task: the last number is taken for
    none. -/
def getSeqNo (s : State) (nTaskId : ℕ) : Option ℕ :=
  (s.m_mapTaskid2Seqno.lookup nTaskId).filter (· ≠ 2 ^ 32 - 1)

/-- `TranferManager::cancelTask` marks the task at a place, whichever task that is. -/
def State.removeTask (s : State) (taskId : ℕ) : State := { s with tasks := s.tasks.filter (· ≠ taskId) }

def clearSeqIdMap (nSeqNo : ℕ) (s : State) : State :=
  match s.m_mapSeqNo2TaskId.lookup nSeqNo with
  | none => s
  | some taskId =>
    { s.removeTask taskId with
      m_mapTaskid2Seqno := eraseKey s.m_mapTaskid2Seqno taskId
      m_mapSeqNo2TaskId := eraseKey s.m_mapSeqNo2TaskId nSeqNo }

def State.eraseRequest (s : State) (nSeqNo : ℕ) : State :=
  { s with m_mapRequest := eraseKey s.m_mapRequest nSeqNo }

def State.record (s : State) (e : Entry) : State := { s with log := s.log ++ [e] }

def deleteSeqNo (nSeqNo : ℕ) (s : State) : State :=
  ((clearSeqIdMap nSeqNo s).eraseRequest nSeqNo).record (.deleted nSeqNo)

def cancelTask (nSeqNo : ℕ) (s : State) : State :=
  if (s.m_mapSeqNo2TaskId.lookup nSeqNo).isSome then
    ((clearSeqIdMap nSeqNo s).eraseRequest nSeqNo).record (.cancelled nSeqNo)
  else s.record (.cancelled nSeqNo)

def State.setRequest (s : State) (nSeqNo : ℕ) (c : HttpContext) : State :=
  { s with m_mapRequest := setKey s.m_mapRequest nSeqNo c }

/-- `addTask` and what follows it; `ret` is the place it returned, or `none` for an error. -/
def addTask (nReqSeq : ℕ) (type : TaskType) (ret : Option ℕ) (s : State) : State :=
  match ret with
  | none => s
  | some taskId =>
    { s with
      tasks := s.tasks ++ [taskId]
      types := setKey s.types taskId type
      m_mapTaskid2Seqno := setKey s.m_mapTaskid2Seqno taskId nReqSeq
      m_mapSeqNo2TaskId := setKey s.m_mapSeqNo2TaskId nReqSeq taskId }

/-- What `ReqURL` and `ReqPostUrl` share. -/
def submit (type : TaskType) (c : HttpContext) (ret : Option ℕ) (s : State) : State :=
  addTask c.nReqSeq type ret (s.setRequest c.nReqSeq c)

def reqURL (c : HttpContext) (ret : Option ℕ) (s : State) : State := submit .download c ret s

def reqPostUrl (args : List ParamType) (c : HttpContext) (ret : Option ℕ) (s : State) : State :=
  submit (postType args) c ret s

/-- What `ReReqURL` and `ReReqPostUrl` share. -/
def resubmit (type : TaskType) (c : HttpContext) (ret : Option ℕ) (s : State) : State :=
  match s.m_mapRequest.lookup c.nReqSeq with
  | none => s
  | some pCxt =>
    addTask c.nReqSeq type ret (s.setRequest c.nReqSeq { pCxt with nFailedTime := c.nFailedTime })

def reReqURL (c : HttpContext) (ret : Option ℕ) (s : State) : State := resubmit .download c ret s

/-- The type of the task is read from the context, whichever parameters were handed over. -/
def reReqPostUrl (c : HttpContext) (ret : Option ℕ) (s : State) : State :=
  resubmit ((c.pArgument.map postType).getD .query) c ret s

/-- A callback finds the context of its task, changes it, and adds copies of it to the results. -/
def callback (body : HttpContext → HttpContext × List HttpContext) (taskid : ℕ) (s : State) : State :=
  match getSeqNo s taskid with
  | none => s
  | some nSeqNo =>
    match s.m_mapRequest.lookup nSeqNo with
    | none => s
    | some c =>
      { s.setRequest nSeqNo (body c).1 with m_lstResult := s.m_lstResult ++ (body c).2 }

def handleProcess (taskid : ℕ) (taskinfo : TaskInfo) (written : Bool) : State → State :=
  callback (·.onProcess taskinfo written) taskid

def handleFinish (taskid : ℕ) (taskinfo : TaskInfo) (written : Bool) : State → State :=
  callback (·.onFinish taskinfo written) taskid

def handleError (taskid : ℕ) (taskinfo : TaskInfo) : State → State :=
  callback (·.onError taskinfo) taskid

/-! ### `CRequestManager` and the two loops -/

def isExistUrl (strUrl : List Char) (s : State) : Bool :=
  s.m_vRequestQueue.any (·.strURL = strUrl)

def reqUrl (c : HttpContext) (ret : Option ℕ) (s : State) : State :=
  if c.strURL = [] then s
  else if c.bAllowRepeated = false ∧ isExistUrl c.strURL s then s
  else
    match c.pArgument with
    | none => reqURL c ret s
    | some args => reqPostUrl args c ret s

def reReqUrl (strUrl : List Char) (c : HttpContext) (pArgument : Option (List ParamType))
    (ret : Option ℕ) (s : State) : State :=
  if strUrl = [] then s
  else
    match pArgument with
    | none => reReqURL c ret (clearSeqIdMap c.nReqSeq s)
    | some _ => reReqPostUrl c ret (clearSeqIdMap c.nReqSeq s)

/-- The policy and the context that are returned. -/
def processResp (ret : Option ℕ) (s : State) : (OpPolicy × HttpContext) × State :=
  match s.m_lstResult with
  | [] => ((.invalidResp, {}), s)
  | c :: rest =>
    let s := { s with m_lstResult := rest }
    match c.policy with
    | .repeatedReq => ((.repeatedReq, c.fail), reReqUrl c.strURL c.fail c.pArgument ret s)
    | .successResp => ((.successResp, c), s.record (.parsed c))
    | p => ((p, c), s)

/-- Whom the error event of a request goes to. -/
def State.desMId (s : State) (nReqSeq : ℕ) : BitVec 16 :=
  (s.m_mapSeqNo2ModuleId.lookup nReqSeq).getD moduleIdInvalid

def errorEvent (desMId : BitVec 16) (c : HttpContext) (code : ℕ) : Event where
  eventValue := c.nEventValue - serviceValueWebBegin + eventValueWebBegin
  param0 := code
  param2 := c.nReqSeq
  desMId := desMId

def State.goto (s : State) (main : Main) : State := { s with main := main }

/-- One round of `ProcessGetResponse`. The result is taken before the limit is looked at. -/
def getResponse (uNum : ℕ) (ret : Option ℕ) (s : State) : State :=
  match processResp ret s with
  | ((p, c), s) =>
    if 10 < uNum then s.goto (.sendUrl 0)
    else
      match p with
      | .invalidResp => s.goto (.sendUrl 0)
      | .repeatedReq => s.goto (.getResponse (uNum + 1))
      | .successResp =>
        if c.last then (deleteSeqNo c.nReqSeq s).goto (.getResponse (uNum + 1))
        else s.goto (.getResponse (uNum + 1))
      | .error code =>
        let e := errorEvent (s.desMId c.nReqSeq) c code
        (deleteSeqNo c.nReqSeq (s.record (.event e))).goto (.getResponse (uNum + 1))

/-- One round of `ProcessSendUrl`. -/
def sendUrl (nNum : ℕ) (ret : Option ℕ) (s : State) : State :=
  let next := if nNum + 1 < 3 then Main.sendUrl (nNum + 1) else .idle
  match s.m_vRequestQueue with
  | [] => s.goto next
  | c :: rest => (reqUrl c ret { s with m_vRequestQueue := rest }).goto next

/-- What the threads do: a call of `PushUrl` or `CancelTask`, the parts of a cycle, a callback.
    `ret` is what `addTask` returns if it is called. -/
inductive Act where
  | pushUrl (r : Request)
  | cycleTrigged
  | getResponse (ret : Option ℕ)
  | sendUrl (ret : Option ℕ)
  | process (taskid : ℕ) (taskinfo : TaskInfo) (written : Bool)
  | finish (taskid : ℕ) (taskinfo : TaskInfo) (written : Bool)
  | error (taskid : ℕ) (taskinfo : TaskInfo)
  | cancelTask (nSeqNo : ℕ)

/-- `findTaskPos` returns a place where no task is. -/
def FreePos (s : State) (ret : Option ℕ) : Prop := ∀ taskId ∈ ret, taskId ∉ s.tasks

instance (s : State) (ret : Option ℕ) : Decidable (FreePos s ret) :=
  inferInstanceAs (Decidable (∀ taskId ∈ ret, taskId ∉ s.tasks))

def step (s : State) : Act → Option State
  | .pushUrl r => some (pushUrl r s)
  | .cycleTrigged => if s.main = .idle then some (s.goto (.getResponse 0)) else none
  | .getResponse ret =>
    match s.main with
    | .getResponse uNum => if FreePos s ret then some (getResponse uNum ret s) else none
    | _ => none
  | .sendUrl ret =>
    match s.main with
    | .sendUrl nNum => if FreePos s ret then some (sendUrl nNum ret s) else none
    | _ => none
  | .process taskid taskinfo written =>
    if taskid ∈ s.tasks then some (handleProcess taskid taskinfo written s) else none
  | .finish taskid taskinfo written =>
    if taskid ∈ s.tasks then some ((handleFinish taskid taskinfo written s).removeTask taskid)
    else none
  | .error taskid taskinfo =>
    if taskid ∈ s.tasks then some ((handleError taskid taskinfo s).removeTask taskid) else none
  -- Callers cancel the numbers `PushUrl` gave them.
  | .cancelTask nSeqNo => if .pushed nSeqNo ∈ s.log then some (cancelTask nSeqNo s) else none

/-- What a step asks for, and the state it leads to. -/
inductive Stepped (s : State) : Act → State → Prop
  | pushUrl (r : Request) : Stepped s (.pushUrl r) (pushUrl r s)
  | cycleTrigged : s.main = .idle → Stepped s .cycleTrigged (s.goto (.getResponse 0))
  | getResponse {uNum : ℕ} {ret : Option ℕ} : s.main = .getResponse uNum → FreePos s ret →
      Stepped s (.getResponse ret) (getResponse uNum ret s)
  | sendUrl {nNum : ℕ} {ret : Option ℕ} : s.main = .sendUrl nNum → FreePos s ret →
      Stepped s (.sendUrl ret) (sendUrl nNum ret s)
  | process {taskid : ℕ} {taskinfo : TaskInfo} {written : Bool} : taskid ∈ s.tasks →
      Stepped s (.process taskid taskinfo written) (handleProcess taskid taskinfo written s)
  | finish {taskid : ℕ} {taskinfo : TaskInfo} {written : Bool} : taskid ∈ s.tasks →
      Stepped s (.finish taskid taskinfo written)
        ((handleFinish taskid taskinfo written s).removeTask taskid)
  | error {taskid : ℕ} {taskinfo : TaskInfo} : taskid ∈ s.tasks →
      Stepped s (.error taskid taskinfo) ((handleError taskid taskinfo s).removeTask taskid)
  | cancelTask {nSeqNo : ℕ} : .pushed nSeqNo ∈ s.log →
      Stepped s (.cancelTask nSeqNo) (cancelTask nSeqNo s)

theorem step_inv {s s' : State} {a : Act} (h : step s a = some s') : Stepped s a s' := by
  cases a with
  | pushUrl r =>
    cases h
    exact .pushUrl r
  | cycleTrigged =>
    simp only [step] at h
    split at h <;> cases h
    exact .cycleTrigged ‹_›
  | getResponse ret =>
    simp only [step] at h
    split at h
    next hmain =>
      split at h <;> cases h
      exact .getResponse hmain ‹_›
    next => cases h
  | sendUrl ret =>
    simp only [step] at h
    split at h
    next hmain =>
      split at h <;> cases h
      exact .sendUrl hmain ‹_›
    next => cases h
  | process taskid taskinfo written =>
    simp only [step] at h
    split at h <;> cases h
    exact .process ‹_›
  | finish taskid taskinfo written =>
    simp only [step] at h
    split at h <;> cases h
    exact .finish ‹_›
  | error taskid taskinfo =>
    simp only [step] at h
    split at h <;> cases h
    exact .error ‹_›
  | cancelTask m =>
    simp only [step] at h
    split at h <;> cases h
    exact .cancelTask ‹_›

end UrlTraveler.Web
