import UrlTraveler.Schemes.Runs

/-! `TTask`, one transfer of the HTTP client.

        IDLE ─▶ CONNECT ─▶ CONNECTWAIT ─▶ AUTH ─▶ START ─▶ RUNNING ─▶ FINISHED
                   ▲            │ timeout            ▲        │
                   └────────────┴── redirection ─────┴────────┘         ERROR

    What the network and the clock answer is an argument of every member function. Descriptors are
    numbers, `none` is a socket that is closed. The finish and the error callback are always there:
    `taskParamCheck` asks for them. -/

namespace UrlTraveler.Transfer

inductive TaskStatus where
  | idle | connect | connectWait | auth | start | running | finished | error | unknown
  deriving DecidableEq

/-- The place of a status in the enumeration. -/
def TaskStatus.rank : TaskStatus → ℕ
  | idle => 0 | connect => 1 | connectWait => 2 | auth => 3 | start => 4 | running => 5
  | finished => 6 | error => 7 | unknown => 8

/-- `TASK_TYPE`. -/
inductive TaskType where | download | query | upload | binary | head
  deriving DecidableEq

/-- `HTTPDOWN_ProxyType`; `none` is a task without a proxy. -/
inductive ProxyType where | none | http | sock4 | sock5
  deriving DecidableEq

/-- Why a request could not be built. -/
inductive BuildFail where
  | noFile | noMemory | fileRead | fileCannotOpen | fileChanged | postParamTypeInvalid
  deriving DecidableEq

/-- The members of `ERR_TASK` that a task ends with. -/
inductive ErrTask where
  | ok | proxyAuthFail | unknownStatus | socketSend | socketRecv | connectFail | redirectionExceed
  | redirectionNoTarget | parseRespFail | readRespFail | noFile | noMemory | fileRead | fileCannotOpen
  | fileChanged | postParamTypeInvalid | timeout
  deriving DecidableEq

/-- `ret_to_err`. -/
def retToErr : BuildFail → ErrTask
  | .noFile => .noFile
  | .noMemory => .noMemory
  | .fileRead => .fileRead
  | .fileCannotOpen => .fileCannotOpen
  | .fileChanged => .fileChanged
  | .postParamTypeInvalid => .postParamTypeInvalid

def maxRedirections : ℕ := 5
def maxRetryConnect : ℕ := 3
def maxConnectTimeout : ℕ := 30

/-- The callbacks, the task type and the options that come with `addTask`. -/
structure Options where
  task_type : TaskType := .download
  proxy : ProxyType := .none
  domain : Bool := false
  handle_init : Bool := true
  handle_process : Bool := true
  handle_headcomplete : Bool := true
  timeoutlimit : ℕ := 0
  dataClean : Bool := false

/-- `TTask`; `id` counts the tasks that were added, `received` the bytes of the body that came in. -/
structure TTask where
  id : ℕ
  opts : Options := {}
  handle_headcomplete : Bool := true
  taskState : TaskStatus := .idle
  errcode : ErrTask := .ok
  startTime : ℕ := 0
  last_active_time : ℕ := 0
  contentLength : ℤ := -1
  doneSize : ℕ := 0
  respSize : ℕ := 0
  requestSize : ℕ := 0
  requestSentSize : ℕ := 0
  connectTimes : ℕ := 0
  redirectionTimes : ℕ := 0
  shouldGetFileInfo : Bool := true
  del : Bool := false
  respHeadCompleted : Bool := false
  respContentCompleted : Bool := false
  dataChanged : Bool := false
  socksInit : Bool := true
  fd : Option ℕ := none
  received : ℕ := 0

namespace TTask

/-- The constructor, and what `addTask` enters. -/
def create (id : ℕ) (o : Options) (now : ℕ) : TTask :=
  { id, opts := o, handle_headcomplete := o.handle_headcomplete, last_active_time := now }

/-- The difference of two times, both `ULONG64`. -/
def elapsed (now before : ℕ) : ℕ := (now + (2 ^ 64 - before % 2 ^ 64)) % 2 ^ 64

def fail (t : TTask) (errcode : ErrTask) : TTask := { t with taskState := .error, errcode }

/-- `THttpCli::Disconnect`. -/
def disconnect (t : TTask) : TTask := { t with fd := none, socksInit := true }

/-! ### Connecting -/

/-- What `Connect` and `ConnectProxyHost` come to. -/
inductive ConnectRet where | ok | continue | socketError | createFail | hostError
  deriving DecidableEq

/-- `onConnected`; `ok` is what `checkConnect` says. -/
def onConnected (t : TTask) (now : ℕ) (ok : Bool) : TTask :=
  let t := { t with last_active_time := now }
  if ok then { t with taskState := if t.opts.proxy = .none then .start else .auth } else t

/-- `tryConnect`. A socket is created if there is none, with the descriptor `newfd`; `none` is `RET_FAIL`. -/
def tryConnect (t : TTask) (now newfd : ℕ) (ret : ConnectRet) (check : Bool) : Option ConnectRet × TTask :=
  let t := { t with startTime := now, last_active_time := now }
  if maxRetryConnect ≤ t.connectTimes then (none, t.fail .connectFail)
  else
    let t := { t with
      connectTimes := t.connectTimes + 1
      fd := if ret = .createFail then t.fd else t.fd.or (some newfd) }
    match ret with
    | .ok => (some ret, t.onConnected now check)
    | .continue => (some ret, { t with taskState := .connectWait })
    | _ => (some ret, t)

/-- `checkConnectTimeout`; the answer says whether the time is over. -/
def checkConnectTimeout (t : TTask) (now : ℕ) : Bool × TTask :=
  if maxConnectTimeout < elapsed now t.startTime then (true, { t.disconnect with taskState := .connect })
  else (false, t)

/-! ### Proxies -/

inductive AuthRet where | ok | beginAuth | doingAuth | fail
  deriving DecidableEq

/-- `proxyAuth`: an HTTP proxy is done or fails, a SOCKS5 proxy begins once. -/
def proxyAuth (t : TTask) (ok : Bool) : AuthRet × TTask :=
  match t.opts.proxy with
  | .http => (if ok then .ok else .fail, t)
  | .sock5 =>
    if t.socksInit then
      if ok then (.beginAuth, { t with socksInit := false }) else (.fail, t)
    else (.doingAuth, t)
  | _ => (.fail, t)

/-- `tryAuth`. -/
def tryAuth (t : TTask) (now : ℕ) (ok : Bool) : AuthRet × TTask :=
  let (ret, t) := t.proxyAuth ok
  let t := { t with last_active_time := now }
  match ret with
  | .ok => (ret, { t with taskState := .start })
  | .fail => (ret, t.fail .connectFail)
  | _ => (ret, t)

/-- `onAuthResp`; the answer says whether another one is awaited. -/
def onAuthResp (t : TTask) (now : ℕ) (ret : AuthRet) : Bool × TTask :=
  let t := { t with last_active_time := now }
  match ret with
  | .ok => (false, { t with taskState := .start })
  | .doingAuth => (true, t)
  | _ => (false, t.fail .proxyAuthFail)

/-! ### The request -/

/-- What `SendData` comes to, with the bytes that went out. -/
inductive SendRet where
  | finish (n : ℕ) | continue (n : ℕ) | fail
  deriving DecidableEq

/-- `sendHttpReq`; `build` is what `generateSendDataBuffer` comes to, with the size of the request. -/
def sendHttpReq (t : TTask) (now : ℕ) (build : Except BuildFail ℕ) (send : SendRet) : SendRet × TTask :=
  let t := { t with shouldGetFileInfo := false, last_active_time := now }
  match build with
  | .error e => (.fail, t.fail (retToErr e))
  | .ok size =>
    let t := { t with requestSize := size }
    match send with
    | .finish n => (send, { t with taskState := .running, requestSentSize := n })
    | .continue n => (send, { t with taskState := .running, requestSentSize := n })
    | .fail => (send, t.fail .socketSend)

/-- `sendHttpReqContinue`. -/
def sendHttpReqContinue (t : TTask) (now : ℕ) (send : SendRet) : SendRet × TTask :=
  let t := { t with last_active_time := now }
  match send with
  | .finish n => (send, { t with requestSentSize := t.requestSentSize + n })
  | .continue n => (send, { t with requestSentSize := t.requestSentSize + n })
  | .fail => (send, t.fail .socketSend)

/-! ### The response -/

/-- What `ProcessHttpResponse` comes to: the length of the content, whether a new location is named,
    whether the NTLM handshake goes on. -/
inductive HeadRet where
  | ok (contentLen : ℕ)
  | newDirection (target : Bool)
  | proxyAuth (ntlm : Bool)
  | continue
  | parseFail
  | fail
  deriving DecidableEq

/-- What `recv` comes to: the bytes that came in, 0 when the peer has closed the connection. -/
inductive RecvRet where
  | bytes (n : ℕ) | wouldBlock | error
  deriving DecidableEq

/-- The return codes of `processHttpResp`. -/
inductive RespRet where | ok | continue | finish | close | newDirection | doingAuth | socketError
  deriving DecidableEq

/-- `processHttpRespHead`. -/
def processHttpRespHead (t : TTask) (now : ℕ) (ret : HeadRet) : RespRet × TTask :=
  let t := { t with last_active_time := now }
  match ret with
  | .ok contentLen =>
    let t := { t with respHeadCompleted := true, contentLength := if contentLen = 0 then -1 else contentLen }
    if t.opts.task_type = .head then
      (.finish, { t with taskState := .finished, respContentCompleted := true })
    else (.ok, t)
  | .newDirection true =>
    (.newDirection, { t.disconnect with
      taskState := .connect, shouldGetFileInfo := true, redirectionTimes := t.redirectionTimes + 1 })
  | .newDirection false => (.close, t.fail .redirectionNoTarget)
  | .proxyAuth ntlm =>
    if t.opts.proxy = .http ∧ t.opts.domain ∧ ntlm then
      (.doingAuth, { t with taskState := .start, shouldGetFileInfo := true })
    else (.close, t.fail .readRespFail)
  | .continue => (.continue, t)
  | .parseFail => (.close, t.fail .parseRespFail)
  | .fail => (.close, t.fail .readRespFail)

/-- `DirectRecvData` with a needed size, 0 for an unknown one. -/
def directRecvData (t : TTask) (needSize : ℤ) (ret : RecvRet) : RespRet × TTask :=
  match ret with
  | .bytes n =>
    let t := { t with respSize := t.respSize + n, received := t.received + n }
    if n = 0 ∨ 0 < needSize ∧ needSize ≤ n then (.finish, t) else (.continue, t)
  | .wouldBlock => (.continue, t)
  | .error => (.socketError, t)

/-- `getRealData`. -/
def getRealData (t : TTask) (now : ℕ) (recv : RecvRet) : RespRet × TTask :=
  let needSize :=
    if 0 < t.contentLength ∧ t.opts.task_type = .download ∧ t.doneSize < t.contentLength then
      t.contentLength - t.doneSize
    else 0
  let (ret, t) := t.directRecvData needSize recv
  let t := { t with last_active_time := now }
  match ret with
  | .socketError => (ret, t.fail .socketRecv)
  | .finish => (ret, { t with taskState := .finished, respContentCompleted := true })
  | _ => (ret, t)

/-- `processHttpResp`. -/
def processHttpResp (t : TTask) (now : ℕ) (head : HeadRet) (recv : RecvRet) : RespRet × TTask :=
  if t.respHeadCompleted then t.getRealData now recv else t.processHttpRespHead now head

/-! ### Reports -/

/-- `updateTaskInfo`, as far as the size that is done goes. -/
def updateTaskInfo (t : TTask) : TTask :=
  let t := { t with dataChanged := false }
  if t.taskState = .error then t
  else
    let toResp : TTask := { t with doneSize := t.respSize, dataChanged := t.doneSize ≠ t.respSize }
    let toSent : TTask := { t with doneSize := t.requestSentSize, dataChanged := t.doneSize ≠ t.requestSentSize }
    match t.opts.task_type with
    | .download | .query =>
      if t.opts.dataClean then { t with doneSize := t.doneSize + t.respSize, dataChanged := t.respSize ≠ 0 }
      else toResp
    | .head => toResp
    | .upload | .binary => toSent

/-- A report changes the size that is done and nothing else. -/
theorem updateTaskInfo_eq (t : TTask) :
    ∃ doneSize dataChanged, t.updateTaskInfo = { t with doneSize, dataChanged } := by
  rw [updateTaskInfo]
  split
  · exact ⟨_, _, rfl⟩
  · cases ht : t.opts.task_type <;> simp only
    case download | query => split <;> exact ⟨_, _, rfl⟩
    all_goals exact ⟨_, _, rfl⟩

@[simp] theorem opts_updateTaskInfo (t : TTask) : t.updateTaskInfo.opts = t.opts := by
  obtain ⟨d, c, h⟩ := t.updateTaskInfo_eq
  rw [h]

@[simp] theorem taskState_updateTaskInfo (t : TTask) : t.updateTaskInfo.taskState = t.taskState := by
  obtain ⟨d, c, h⟩ := t.updateTaskInfo_eq
  rw [h]

/-- `checkTimeOut`. -/
def checkTimeOut (t : TTask) (now : ℕ) : TTask :=
  if 0 < t.opts.timeoutlimit ∧ t.opts.timeoutlimit ≤ elapsed now t.last_active_time then t.fail .timeout else t

end TTask
end UrlTraveler.Transfer
