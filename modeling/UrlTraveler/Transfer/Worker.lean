import UrlTraveler.Schemes.Maps
import UrlTraveler.Transfer.Task

/-! `TranferManager` and its worker thread.

        client   addTask, cancelTask, clear, stop        taskQue[i], taskQue[i]->del
        worker   scanTaskQue ─▶ scanIO ─▶ scanTaskQue    everything else

    A step of the worker is what it does up to the next place where the client's steps can make a
    difference: it looks at `del` once when it comes to a task, and again, with the lock held, before
    every callback. `clear` takes the lock once for every slot. -/

namespace UrlTraveler.Transfer
open Maps

def maxTaskQueSize : ℕ := 1024

inductive Handler where | init | headcomplete | process | finish | error
  deriving DecidableEq

/-- What the client can see, and the end of a task. -/
inductive Event where
  | added (pos id : ℕ)
  | cancelled (pos id : ℕ)
  | cleared (count : ℕ)
  | stopped
  | called (h : Handler) (pos : ℕ) (t : TTask)
  | removed (pos id : ℕ)

/-- The numbers of tasks in the last scan. -/
structure Counts where
  running : ℕ := 0
  starting : ℕ := 0
  waitting : ℕ := 0
  finish : ℕ := 0
  error : ℕ := 0
  unkown : ℕ := 0
  connecting : ℕ := 0

/-- Where the worker is; the scan carries its `remainposition` and its counts. -/
inductive Pc where
  | scan (i remain : ℕ) (c : Counts)
  | call (h : Handler) (i remain : ℕ) (c : Counts)
  | clear (i remain : ℕ) (c : Counts)
  | select
  | io (it : List (ℕ × ℕ)) (tmpread tmpwrite : Finset ℕ) (delete_map : List (ℕ × ℕ))
  | cleanup (i : ℕ)
  | done

/-- Where the client is: outside, or in the loop of `clear`. -/
inductive Client where
  | outside
  | clearing (i : ℕ) (stopping : Bool)
  deriving DecidableEq

structure State where
  taskQue : ℕ → Option TTask := fun _ => none
  curPos : ℕ := 0
  maxPos : ℕ := 0
  maxRunTaskNum : ℕ := 32
  stop : Bool := false
  s_t_map : List (ℕ × ℕ) := []
  readfds : Finset ℕ := ∅
  writefds : Finset ℕ := ∅
  counts : Counts := {}
  pc : Pc := .scan 0 32 {}
  client : Client := .outside
  mgrStarted : Bool := true
  count : ℕ := 0
  history : List Event := []

/-- What the network, the clock and the disk answer in one step of the worker. -/
structure Env where
  now : ℕ := 0
  newfd : ℕ := 0
  connect : TTask.ConnectRet := .continue
  check : Bool := true
  auth : Bool := true
  authResp : TTask.AuthRet := .ok
  build : Except BuildFail ℕ := .ok 0
  send : TTask.SendRet := .finish 0
  head : TTask.HeadRet := .ok 0
  recv : TTask.RecvRet := .bytes 0
  readable : Finset ℕ := ∅
  writable : Finset ℕ := ∅

inductive Act where
  | addTask (o : Options) (now : ℕ)
  | cancelTask (pos : ℕ)
  | clear
  | stop
  | client
  | worker (e : Env)

namespace State

def put (s : State) (i : ℕ) (t : Option TTask) : State := { s with taskQue := Function.update s.taskQue i t }

def record (s : State) (e : Event) : State := { s with history := s.history ++ [e] }

/-! ### The client -/

/-- The loop of `findTaskPos`. -/
def findTaskPosLoop (taskQue : ℕ → Option TTask) : ℕ → ℕ → Option ℕ
  | 0, _ => none
  | fuel + 1, i =>
    if (taskQue i).isNone then some i
    else findTaskPosLoop taskQue fuel (if i + 1 = maxTaskQueSize then 0 else i + 1)

/-- `findTaskPos`. -/
def findTaskPos (s : State) : Option (ℕ × State) :=
  (findTaskPosLoop s.taskQue maxTaskQueSize s.curPos).map fun i =>
    (i, { s with curPos := (i + 1) % maxTaskQueSize, maxPos := max s.maxPos i })

/-- `addTask` with parameters that pass the check; a full queue changes nothing. -/
def addTask (s : State) (o : Options) (now : ℕ) : State :=
  if s.mgrStarted then
    match s.findTaskPos with
    | some (i, s) =>
      ({ s.put i (some (.create s.count o now)) with count := s.count + 1 }).record (.added i s.count)
    | none => s
  else s

/-- What `cancelTask` and `clear` do in a slot with the lock held. -/
def cancelSlot (s : State) (pos : ℕ) : State :=
  match s.taskQue pos with
  | some t => (s.put pos (some { t with del := true })).record (.cancelled pos t.id)
  | none => s

/-- One round of the loop of `clear`, or what comes behind it. -/
def clientStep (s : State) : State :=
  match s.client with
  | .outside => s
  | .clearing i stopping =>
    if i < maxTaskQueSize then { s.cancelSlot i with client := .clearing (i + 1) stopping }
    else
      let s := ({ s with client := .outside }).record (.cleared s.count)
      if stopping then ({ s with stop := true, mgrStarted := false }).record .stopped else s

/-! ### scanTaskQue -/

/-- `clearTaskInfo`. -/
def clearTaskInfo (s : State) (i : ℕ) : State :=
  match s.taskQue i with
  | some t =>
    let s := match t.fd with
      | some fd => { s with
          readfds := s.readfds.erase fd, writefds := s.writefds.erase fd, s_t_map := eraseKey s.s_t_map fd }
      | none => s
    (s.put i none).record (.removed i t.id)
  | none => s

/-- The start of `scanTaskQue`: the positions that are left are counted from the last scan. -/
def beginScan (s : State) : State :=
  let scheduledcount := s.counts.running + s.counts.starting + s.counts.finish + s.counts.error +
    s.counts.unkown + s.counts.connecting
  { s with pc := .scan 0 (s.maxRunTaskNum - scheduledcount) {} }

/-- `FD_SET` of the task's socket. -/
def watchRead (s : State) (t : TTask) : State :=
  match t.fd with
  | some fd => { s with readfds := insert fd s.readfds }
  | none => s

def watchWrite (s : State) (t : TTask) : State :=
  match t.fd with
  | some fd => { s with writefds := insert fd s.writefds }
  | none => s

/-- `s_t_map[fd] = i`. -/
def mapSocket (s : State) (i : ℕ) (t : TTask) : State :=
  match t.fd with
  | some fd => { s with s_t_map := setKey s.s_t_map fd i }
  | none => s

/-- `TSK_CONNECT`. -/
def scanConnect (s : State) (e : Env) (i : ℕ) (t : TTask) : State :=
  let (ret, t) := t.tryConnect e.now e.newfd e.connect e.check
  let s := s.put i (some t)
  match ret with
  | some .continue => (s.mapSocket i t).watchWrite t
  | some .ok => s.mapSocket i t
  | _ => s

/-- `TSK_CONNECTWAIT`. -/
def scanConnectWait (s : State) (e : Env) (i : ℕ) (t : TTask) : State :=
  let sockfd := t.fd
  let (timeout, t) := t.checkConnectTimeout e.now
  let s := s.put i (some t)
  match timeout, sockfd with
  | true, some fd => { s with writefds := s.writefds.erase fd, s_t_map := eraseKey s.s_t_map fd }
  | _, _ => s

/-- `TSK_AUTH`. -/
def scanAuth (s : State) (e : Env) (i : ℕ) (t : TTask) : State :=
  let (ret, t) := t.tryAuth e.now e.auth
  let s := s.put i (some t)
  if ret = .beginAuth then s.watchRead t else s

/-- `sendHttpReq` in `TSK_START`. -/
def scanSend (s : State) (e : Env) (i : ℕ) (t : TTask) : State :=
  let (ret, t) := t.sendHttpReq e.now e.build e.send
  let s := s.put i (some t)
  match ret with
  | .finish _ => s.watchRead t
  | .continue _ => s.watchWrite t
  | .fail => s

/-- The switch of `scanTaskQue` on a task that is not deleted. -/
def scanTask (s : State) (e : Env) (i : ℕ) (t : TTask) (remain : ℕ) (c : Counts) : State :=
  match t.taskState with
  | .idle =>
    let c := { c with waitting := c.waitting + 1 }
    if 0 < remain ∧ s.s_t_map.length < 64 then
      { s.put i (some { t with taskState := .connect }) with pc := .scan (i + 1) (remain - 1) c }
    else { s with pc := .scan (i + 1) remain c }
  | .connect => { s.scanConnect e i t with pc := .scan (i + 1) remain c }
  | .connectWait =>
    { s.scanConnectWait e i t with pc := .scan (i + 1) remain { c with connecting := c.connecting + 1 } }
  | .auth => { s.scanAuth e i t with pc := .scan (i + 1) remain c }
  | .start =>
    let c := { c with starting := c.starting + 1 }
    if maxRedirections ≤ t.redirectionTimes then
      { s.put i (some (t.fail .redirectionExceed)) with pc := .scan (i + 1) remain c }
    else if t.shouldGetFileInfo then { s.scanSend e i t with pc := .scan (i + 1) remain c }
    else
      { s.put i (some t.updateTaskInfo) with
        pc := if t.opts.handle_init then .call .init i remain c else .scan (i + 1) remain c }
  | .running =>
    let c := { c with running := c.running + 1 }
    let t := t.updateTaskInfo
    { s.put i (some t) with
      pc := if t.opts.handle_process ∧ t.dataChanged then .call .process i remain c
        else .scan (i + 1) remain c }
  | .finished =>
    { s.put i (some t.updateTaskInfo) with pc := .call .finish i remain { c with finish := c.finish + 1 } }
  | .error =>
    { s.put i (some t.updateTaskInfo) with pc := .call .error i remain { c with error := c.error + 1 } }
  | .unknown =>
    { s.put i (some { t with errcode := .unknownStatus }.updateTaskInfo) with
      pc := .call .error i remain { c with unkown := c.unkown + 1 } }

/-- One round of the loop of `scanTaskQue`. -/
def scanStep (s : State) (e : Env) (i remain : ℕ) (c : Counts) : State :=
  if s.maxPos < i then { s with counts := c, pc := .select }
  else if s.stop then { s with pc := .select }
  else match s.taskQue i with
    | none => { s with pc := .scan (i + 1) remain c }
    | some t =>
      let t := if t.taskState = .idle then t else t.checkTimeOut e.now
      let s := s.put i (some t)
      if t.del then { s with pc := .clear i remain c } else s.scanTask e i t remain c

/-- A callback with the lock held, and where the scan goes on. -/
def callStep (s : State) (h : Handler) (i remain : ℕ) (c : Counts) : State :=
  match s.taskQue i with
  | none => { s with pc := .scan (i + 1) remain c }
  | some t =>
    let s := if t.del then s else s.record (.called h i t)
    match h with
    | .process =>
      let t := if t.opts.dataClean then { t with respSize := 0 } else t
      { s.put i (some t) with pc := .scan (i + 1) remain c }
    | .finish | .error => { s with pc := .clear i remain c }
    | _ => { s with pc := .scan (i + 1) remain c }

/-! ### scanIO -/

/-- The loop of `run`. -/
def loopEnd (s : State) : State := if s.stop then { s with pc := .cleanup 0 } else s.beginScan

/-- `select`: the sockets that are ready. -/
def selectStep (s : State) (e : Env) : State :=
  let tmpread := e.readable ∩ s.readfds
  let tmpwrite := e.writable ∩ s.writefds
  if tmpread = ∅ ∧ tmpwrite = ∅ then s.loopEnd
  else { s with pc := .io (s.s_t_map.insertionSort fun a b => a.1 ≤ b.1) tmpread tmpwrite [] }

/-- The answer to a request is read; the headcomplete callback has the lock. -/
def ioRead (s : State) (e : Env) (sockfd taskid : ℕ) (t : TTask) (delete_map : List (ℕ × ℕ)) :
    State × List (ℕ × ℕ) :=
  if t.taskState = .auth then
    let (again, t) := t.onAuthResp e.now e.authResp
    let s := s.put taskid (some t)
    (if again then s else { s with readfds := s.readfds.erase sockfd }, delete_map)
  else
    let (ret, t) := t.processHttpResp e.now e.head e.recv
    if ret = .ok ∨ ret = .continue then
      if !t.del && t.respHeadCompleted && t.handle_headcomplete then
        let t := t.updateTaskInfo
        ((s.put taskid (some { t with handle_headcomplete := false })).record (.called .headcomplete taskid t),
          delete_map)
      else (s.put taskid (some t), delete_map)
    else
      let s := s.put taskid (some t)
      ({ s with readfds := s.readfds.erase sockfd },
        if ret = .doingAuth then delete_map else setKey delete_map sockfd taskid)

/-- The rest of a request is sent. -/
def ioWrite (s : State) (e : Env) (sockfd taskid : ℕ) (t : TTask) (delete_map : List (ℕ × ℕ)) :
    State × TTask × List (ℕ × ℕ) :=
  let (ret, t) := t.sendHttpReqContinue e.now e.send
  let s := s.put taskid (some t)
  match ret with
  | .finish _ =>
    let s := s.watchRead t
    ({ s with writefds := s.writefds.erase sockfd }, t, delete_map)
  | .continue _ => (s, t, delete_map)
  | .fail => ({ s with writefds := s.writefds.erase sockfd }, t, setKey delete_map sockfd taskid)

/-- One socket in the loop of `scanIO`. -/
def ioTask (s : State) (e : Env) (sockfd taskid : ℕ) (t : TTask) (tmpread tmpwrite : Finset ℕ)
    (delete_map : List (ℕ × ℕ)) : State × List (ℕ × ℕ) :=
  if t.taskState.rank < TaskStatus.connectWait.rank ∨ TaskStatus.running.rank < t.taskState.rank then
    (s, delete_map)
  else if sockfd ∈ tmpwrite ∧ t.taskState = .connectWait then
    let s := s.put taskid (some (t.onConnected e.now e.check))
    ({ s with writefds := s.writefds.erase sockfd }, delete_map)
  else
    let (s, t, delete_map) :=
      if sockfd ∈ tmpwrite then s.ioWrite e sockfd taskid t delete_map else (s, t, delete_map)
    if sockfd ∈ tmpread then s.ioRead e sockfd taskid t delete_map else (s, delete_map)

/-- The loop of `scanIO`; `none` is a task that is not there. -/
def ioStep (s : State) (e : Env) (it : List (ℕ × ℕ)) (tmpread tmpwrite : Finset ℕ)
    (delete_map : List (ℕ × ℕ)) : Option State :=
  match it with
  | [] => some { s with s_t_map := delete_map.foldl (fun m (d : ℕ × ℕ) => eraseKey m d.1) s.s_t_map }.loopEnd
  | (sockfd, taskid) :: it =>
    if s.stop then some s.loopEnd
    else match s.taskQue taskid with
      | none => none
      | some t =>
        let (s, delete_map) := s.ioTask e sockfd taskid t tmpread tmpwrite delete_map
        some { s with pc := .io it tmpread tmpwrite delete_map }

/-- The end of `run`. -/
def cleanupStep (s : State) (i : ℕ) : State :=
  if i < maxTaskQueSize then { s.clearTaskInfo i with pc := .cleanup (i + 1) }
  else { s with s_t_map := [], pc := .done }

def workerStep (s : State) (e : Env) : Option State :=
  match s.pc with
  | .scan i remain c => some (s.scanStep e i remain c)
  | .call h i remain c => some (s.callStep h i remain c)
  | .clear i remain c => some { s.clearTaskInfo i with pc := .scan (i + 1) remain c }
  | .select => some (s.selectStep e)
  | .io it tmpread tmpwrite delete_map => s.ioStep e it tmpread tmpwrite delete_map
  | .cleanup i => some (s.cleanupStep i)
  | .done => some s

end State

/-- `TranferManager::start`, and the first scan of its worker. -/
def start (maxRunTaskNum : ℕ) : State := { maxRunTaskNum, pc := .scan 0 maxRunTaskNum {} }

/-- The client is in one call at a time; a task id is a slot of the queue. -/
def step (s : State) : Act → Option State
  | .addTask o now => if s.client = .outside then some (s.addTask o now) else none
  | .cancelTask pos =>
    if s.client = .outside ∧ pos < maxTaskQueSize then
      some (if s.mgrStarted then s.cancelSlot pos else s)
    else none
  | .clear =>
    if s.client = .outside then some (if s.mgrStarted then { s with client := .clearing 0 false } else s)
    else none
  | .stop =>
    if s.client = .outside then some (if s.mgrStarted then { s with client := .clearing 0 true } else s)
    else none
  | .client => some s.clientStep
  | .worker e => s.workerStep e

end UrlTraveler.Transfer
