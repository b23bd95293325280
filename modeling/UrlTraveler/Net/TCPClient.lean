import UrlTraveler.Schemes.Runs

/-! `CTCPClient` and its socket threads.

    A thread posts what happens to it as messages, which the client's own thread dispatches later:

        start ──▶ connecting ──▶ connected ──(posts the result)──▶ receiving ──(posts close)──▶ done
          └───────────┴── m_bThreadExit ──▶ done

    `Disconnect` sets m_bThreadExit and waits for the thread, or ends it. A thread that has passed its
    last look at the flag has posted its result by then, or will; and `OnConnect` puts the client into
    ESS_ISCONNECTED whatever state it is in, since its test of the state has an empty body. The flag
    is never taken back. The callbacks do not call the client. -/

namespace UrlTraveler.Net
open Runs

inductive SocketStatus
  | notPrepared | notConnected | connecting | isConnected | disconnecting
  deriving DecidableEq

/-- What a socket thread posts: `TCPPACKAGEINFO`. -/
inductive SocketEvent
  | connect (bConnected : Bool)
  | read (pBytes : List UInt8)
  | close
  deriving DecidableEq

/-- Where a socket thread is: before the first test of m_bThreadExit, in `connect`, behind the second
    test, and in the loop. -/
inductive ThreadPos
  | start
  | connecting
  | connected (bConnected : Bool)
  | receiving
  | done
  deriving DecidableEq

/-- Who waits for the thread in `CloseSocket`; `OnClose` may run inside `CleanUp`. -/
inductive Waiter
  | disconnect
  | cleanUpDisconnect
  | cleanUp
  | onClose (cleaning : Bool)
  deriving DecidableEq

/-- What the client's thread is doing: nothing, waiting, or the loop of `CleanUp`. -/
inductive Busy
  | idle
  | waiting (w : Waiter)
  | cleaning
  deriving DecidableEq

/-- The functions of `ISocketEvent`. -/
inductive Callback
  | onConnectSuccess
  | onConnectFail (nErrorCode : ℤ)
  | onReceived (pBytes : List UInt8)
  | onClosed (nErrorCode : ℤ)
  deriving DecidableEq

/-- The client, its threads (the last one is `m_hThread`, if that is not null) and the messages that
    wait. `down` says that `Disconnect` has returned TRUE and `Connect` was not called since. -/
structure Client where
  m_nSocketStatus : SocketStatus := .notPrepared
  m_pEventHandler : Bool := false
  m_bThreadExit : Bool := false
  m_bConnecting : Bool := false
  m_hThread : Bool := false
  threads : List ThreadPos := []
  window : Bool := true
  queue : List SocketEvent := []
  busy : Busy := .idle
  fired : List Callback := []
  down : Bool := false

namespace Client

/-! ### The socket threads -/

/-- `AddPackageToList`. -/
def post (s : Client) (e : SocketEvent) : Client :=
  if s.window then { s with queue := s.queue ++ [e] } else s

def setThread (s : Client) (k : ℕ) (pos : ThreadPos) : Client :=
  { s with threads := s.threads.set k pos }

/-- One move of a thread; `ok` is what `connect` gives. -/
def threadGo (s : Client) (k : ℕ) (ok : Bool) : Option Client :=
  match s.threads[k]? with
  | some .start =>
    if s.m_bThreadExit then some (s.setThread k .done)
    else some ({ s with m_bConnecting := true }.setThread k .connecting)
  | some .connecting =>
    let s := { s with m_bConnecting := false }
    if s.m_bThreadExit then some (s.setThread k .done) else some (s.setThread k (.connected ok))
  | some (.connected bConnected) =>
    some ((s.post (.connect bConnected)).setThread k (if bConnected then .receiving else .done))
  | _ => none

def threadRead (s : Client) (k : ℕ) (pBytes : List UInt8) : Option Client :=
  if s.threads[k]? = some .receiving then some (s.post (.read pBytes)) else none

/-- The peer has closed, or the flag was seen. -/
def threadClose (s : Client) (k : ℕ) : Option Client :=
  if s.threads[k]? = some .receiving then some ((s.post .close).setThread k .done) else none

/-! ### The calls -/

def create (s : Client) (pEventHandler : Bool) : Client :=
  if s.m_nSocketStatus = .notPrepared then
    { s with m_pEventHandler := pEventHandler, m_nSocketStatus := .notConnected }
  else s

/-- `Connect(ulHostIP, ushPort)`; no thread is started for the address 0. -/
def connect (s : Client) (ulHostIP : ℕ) : Client :=
  let s := { s with m_nSocketStatus := .connecting, down := false }
  if ulHostIP = 0 then s else { s with threads := s.threads ++ [.start], m_hThread := true }

/-- `Connect(lpszHost, ushPort)`, which does not look up names. -/
def connectHost (s : Client) (ulHostIP : Option ℕ) : Client :=
  match ulHostIP with
  | some ulHostIP =>
    if s.m_nSocketStatus = .notConnected then s.connect ulHostIP else { s with down := false }
  | none => { s with down := false }

/-- `CloseSocket` up to the wait. -/
def closeSocket (s : Client) (w : Waiter) : Client :=
  { s with m_bThreadExit := true, busy := .waiting w }

def isUp (s : Client) : Bool :=
  s.m_nSocketStatus = .connecting || s.m_nSocketStatus = .isConnected

/-- `Disconnect` up to the wait; without one it returns FALSE. -/
def disconnect (s : Client) : Client :=
  let s := { s with m_pEventHandler := false }
  if s.isUp then { s with m_nSocketStatus := .disconnecting }.closeSocket .disconnect else s

def cleanUp (s : Client) : Client :=
  if s.isUp then
    { s with m_pEventHandler := false,
             m_nSocketStatus := .disconnecting }.closeSocket .cleanUpDisconnect
  else s.closeSocket .cleanUp

def fire (s : Client) (c : Callback) : Client :=
  if s.m_pEventHandler then { s with fired := s.fired ++ [c] } else s

/-- `WaitThreadExit`: the last thread is over, or is ended while `connect` may be under way.
    `bDelayAwake`: the option to delay is set, and the thread does not sleep. -/
def waitThreadExit (s : Client) (bDelayAwake : Bool) : Option Client :=
  if s.m_hThread then
    if !s.m_bConnecting || bDelayAwake then
      if s.threads.getLast? = some .done then some { s with m_hThread := false } else none
    else some { s with threads := s.threads.dropLast ++ [.done], m_hThread := false }
  else some s

/-- What comes behind the wait. -/
def resume (s : Client) : Waiter → Client
  | .disconnect => { s with busy := .idle, down := true }
  | .cleanUpDisconnect => { s with down := true }.closeSocket .cleanUp
  | .cleanUp =>
    let s := { s with m_nSocketStatus := .notPrepared }
    if s.window then { s with busy := .cleaning }
    else { s with busy := .idle, m_pEventHandler := false }
  | .onClose cleaning => { s.fire (.onClosed 0) with busy := if cleaning then .cleaning else .idle }

/-! ### Messages -/

def onConnect (s : Client) (nErrorCode : ℤ) : Client :=
  if nErrorCode = 0 then { s with m_nSocketStatus := .isConnected }.fire .onConnectSuccess
  else { s with m_nSocketStatus := .notConnected }.fire (.onConnectFail (-1))

def onRead (s : Client) (pBytes : List UInt8) : Client := s.fire (.onReceived pBytes)

def onClose (s : Client) : Client :=
  if s.isUp then
    { s with m_nSocketStatus := .disconnecting }.closeSocket (.onClose (s.busy = Busy.cleaning))
  else s

/-- `ProcessPackage`. -/
def processPackage (s : Client) : SocketEvent → Client
  | .connect bConnected => s.onConnect (if bConnected then 0 else 1)
  | .read pBytes => s.onRead pBytes
  | .close => s.onClose

def dispatch (s : Client) : Option Client :=
  match s.queue with
  | [] => none
  | e :: queue => some ({ s with queue }.processPackage e)

end Client

/-! ### Steps -/

inductive NetAct
  | create (pEventHandler : Bool)
  | connect (ulHostIP : ℕ)
  | connectHost (ulHostIP : Option ℕ)
  | disconnect
  | cleanUp
  | wait (bDelayAwake : Bool)
  | dispatch
  | cleaned
  | threadGo (k : ℕ) (ok : Bool)
  | threadRead (k : ℕ) (pBytes : List UInt8)
  | threadClose (k : ℕ)
  deriving DecidableEq

/-- The client's thread does one thing at a time; the socket threads move at any time. -/
def netStep (s : Client) : NetAct → Option Client
  | .create pEventHandler => if s.busy = .idle then some (s.create pEventHandler) else none
  | .connect ulHostIP => if s.busy = .idle then some (s.connect ulHostIP) else none
  | .connectHost ulHostIP => if s.busy = .idle then some (s.connectHost ulHostIP) else none
  | .disconnect => if s.busy = .idle then some s.disconnect else none
  | .cleanUp => if s.busy = .idle then some s.cleanUp else none
  | .wait bDelayAwake =>
    match s.busy with
    | .waiting w => (s.waitThreadExit bDelayAwake).map (·.resume w)
    | _ => none
  | .dispatch => if s.busy = .idle ∨ s.busy = .cleaning then s.dispatch else none
  | .cleaned =>
    if s.busy = .cleaning ∧ s.queue = [] then
      some { s with window := false, m_pEventHandler := false, busy := .idle }
    else none
  | .threadGo k ok => s.threadGo k ok
  | .threadRead k pBytes => s.threadRead k pBytes
  | .threadClose k => s.threadClose k

/-- Once `Disconnect` has returned TRUE the client is not connected. -/
def Client.StaysDown (s : Client) : Prop := s.down = true → s.m_nSocketStatus ≠ .isConnected

/-- The threads that are not waited for. -/
def Client.others (s : Client) : List ThreadPos :=
  if s.m_hThread then s.threads.dropLast else s.threads

/-- When a `Disconnect` that is going to return TRUE has waited, no message says that a connection
    was made, and no other thread is about to post one (without the window none is posted). -/
def Quiet (s : Client) : NetAct → Prop
  | .wait _ => s.busy = .waiting .disconnect ∨ s.busy = .waiting .cleanUpDisconnect →
      .connect true ∉ s.queue ∧ (s.window = true → .connected true ∉ s.others)
  | _ => True

/-! ### What keeps the client down -/

/-- Nothing that is posted, or about to be, says that a connection was made. -/
structure Client.Silent (s : Client) : Prop where
  queue : SocketEvent.connect true ∉ s.queue
  threads : s.window = true → ThreadPos.connected true ∉ s.threads

/-- While the client is down the flag is set and everything is silent; and whoever waits has set the
    flag, `Disconnect` after it has left the connected state. -/
structure Client.Sound (s : Client) : Prop where
  waiting : ∀ w, s.busy = .waiting w → s.m_bThreadExit = true
  leaving : s.busy = .waiting .disconnect ∨ s.busy = .waiting .cleanUpDisconnect →
    s.m_nSocketStatus ≠ .isConnected
  down : s.down = true → s.m_bThreadExit = true ∧ s.m_nSocketStatus ≠ .isConnected ∧ s.Silent

namespace Client.Sound
variable {s s' : Client}

/-- A step of a thread: the client itself is as it was. -/
theorem frame (h : s.Sound) (hbusy : s'.busy = s.busy) (hexit : s'.m_bThreadExit = s.m_bThreadExit)
    (hstatus : s'.m_nSocketStatus = s.m_nSocketStatus) (hdown : s'.down = s.down)
    (hsilent : s.down = true → s'.Silent) : s'.Sound where
  waiting w hw := by
    rw [hexit]
    exact h.waiting w (hbusy ▸ hw)
  leaving hw := by
    rw [hstatus]
    rw [hbusy] at hw
    exact h.leaving hw
  down hd := by
    rw [hdown] at hd
    rw [hexit, hstatus]
    exact ⟨(h.down hd).1, (h.down hd).2.1, hsilent hd⟩

/-- A call of `Connect`. -/
theorem up (hbusy : ∀ w, s'.busy ≠ .waiting w) (hdown : s'.down = false) : s'.Sound where
  waiting w hw := absurd hw (hbusy w)
  leaving hw := absurd hw (not_or.mpr ⟨hbusy _, hbusy _⟩)
  down hd := by
    rw [hdown] at hd
    cases hd

/-- Another step of the client that starts no wait. -/
theorem free (h : s.Sound) (hbusy : ∀ w, s'.busy ≠ .waiting w)
    (hexit : s'.m_bThreadExit = s.m_bThreadExit) (hqueue : s'.queue = s.queue)
    (hthreads : s'.threads = s.threads) (hwindow : s'.window = true → s.window = true)
    (hdown : s'.down = true → s.down = true ∧ s'.m_nSocketStatus ≠ .isConnected) : s'.Sound where
  waiting w hw := absurd hw (hbusy w)
  leaving hw := absurd hw (not_or.mpr ⟨hbusy _, hbusy _⟩)
  down hd := by
    obtain ⟨hd', hstatus⟩ := hdown hd
    obtain ⟨hset, -, hsilent⟩ := h.down hd'
    refine ⟨hexit.trans hset, hstatus, ?_, fun hw => ?_⟩
    · rw [hqueue]
      exact hsilent.queue
    · rw [hthreads]
      exact hsilent.threads (hwindow hw)

/-- The flag is set, and the wait begins. -/
theorem closeSocket (h : s.Sound) (w : Waiter) (hdown : s'.down = true → s.down = true)
    (hstatus : s'.m_nSocketStatus ≠ .isConnected) (hqueue : s'.queue = s.queue)
    (hthreads : s'.threads = s.threads) (hwindow : s'.window = s.window) :
    (s'.closeSocket w).Sound where
  waiting _ _ := rfl
  leaving _ := hstatus
  down hd := by
    have hsilent := (h.down (hdown hd)).2.2
    refine ⟨rfl, hstatus, ?_, ?_⟩
    · rw [show (s'.closeSocket w).queue = s.queue from hqueue]
      exact hsilent.queue
    · rw [show (s'.closeSocket w).threads = s.threads from hthreads]
      exact fun hw => hsilent.threads (hwindow ▸ hw)

end Client.Sound

/-! ### The threads -/

section Threads
variable {s s' : Client} {k : ℕ}

theorem Client.Silent.post (h : s.Silent) {e : SocketEvent} (he : e ≠ .connect true) :
    (s.post e).Silent := by
  rw [Client.post]
  split
  · refine ⟨fun hmem => ?_, h.threads⟩
    rcases List.mem_append.mp hmem with hmem | hmem
    · exact h.queue hmem
    · exact he (List.mem_singleton.mp hmem).symm
  · exact h

theorem Client.Silent.setThread (h : s.Silent) {pos : ThreadPos} (hpos : pos ≠ .connected true) :
    (s.setThread k pos).Silent := by
  refine ⟨h.queue, fun hwindow hmem => ?_⟩
  rcases List.mem_or_eq_of_mem_set hmem with hmem | heq
  · exact h.threads hwindow hmem
  · exact hpos heq.symm

theorem post_frame (s : Client) (e : SocketEvent) : (s.post e).busy = s.busy ∧
    (s.post e).m_bThreadExit = s.m_bThreadExit ∧ (s.post e).m_nSocketStatus = s.m_nSocketStatus ∧
    (s.post e).down = s.down := by
  rw [Client.post]
  split <;> exact ⟨rfl, rfl, rfl, rfl⟩

theorem threadGo_sound (h : s.Sound) {ok : Bool} (hs : s.threadGo k ok = some s') : s'.Sound := by
  unfold Client.threadGo at hs
  split at hs
  next =>
    split at hs
    · cases hs
      exact h.frame rfl rfl rfl rfl fun hd => (h.down hd).2.2.setThread (by simp)
    next hexit =>
      cases hs
      refine h.frame rfl rfl rfl rfl fun hd => absurd (h.down hd).1 hexit
  next =>
    simp only at hs
    split at hs
    · cases hs
      refine h.frame rfl rfl rfl rfl fun hd => ?_
      have hsilent : { s with m_bConnecting := false }.Silent :=
        ⟨(h.down hd).2.2.queue, (h.down hd).2.2.threads⟩
      exact hsilent.setThread (by simp)
    next hexit =>
      cases hs
      exact h.frame rfl rfl rfl rfl fun hd => absurd (h.down hd).1 hexit
  next bConnected hpos =>
    cases hs
    obtain ⟨hbusy, hexit, hstatus, hdown⟩ := post_frame s (.connect bConnected)
    refine h.frame hbusy hexit hstatus hdown fun hd => ?_
    have hsilent := (h.down hd).2.2
    have hpost : (s.post (.connect bConnected)).Silent := by
      by_cases hwindow : s.window = true
      · refine hsilent.post fun heq => hsilent.threads hwindow ?_
        cases heq
        exact List.mem_of_getElem? hpos
      · rw [Client.post, if_neg hwindow]
        exact hsilent
    exact hpost.setThread (by split <;> simp)
  next => cases hs

theorem threadRead_sound (h : s.Sound) {pBytes : List UInt8} (hs : s.threadRead k pBytes = some s') :
    s'.Sound := by
  rw [Client.threadRead] at hs
  split at hs
  · cases hs
    obtain ⟨hbusy, hexit, hstatus, hdown⟩ := post_frame s (.read pBytes)
    exact h.frame hbusy hexit hstatus hdown fun hd => (h.down hd).2.2.post (by simp)
  · cases hs

theorem threadClose_sound (h : s.Sound) (hs : s.threadClose k = some s') : s'.Sound := by
  rw [Client.threadClose] at hs
  split at hs
  · cases hs
    obtain ⟨hbusy, hexit, hstatus, hdown⟩ := post_frame s .close
    exact h.frame hbusy hexit hstatus hdown fun hd =>
      ((h.down hd).2.2.post (by simp)).setThread (by simp)
  · cases hs

end Threads

/-! ### The calls and the messages -/

section Calls
variable {s s' : Client}

theorem not_isConnected_of_not_isUp (h : s.isUp ≠ true) : s.m_nSocketStatus ≠ .isConnected := by
  intro hs
  exact h (by simp [Client.isUp, hs])

theorem create_sound (h : s.Sound) (hidle : s.busy = .idle) (pEventHandler : Bool) :
    (s.create pEventHandler).Sound := by
  rw [Client.create]
  split
  · exact h.free (by simp [hidle]) rfl rfl rfl (fun hw => hw) fun hd => ⟨hd, by simp⟩
  · exact h

theorem connect_sound (hidle : s.busy = .idle) (ulHostIP : ℕ) : (s.connect ulHostIP).Sound := by
  rw [Client.connect]
  split
  · exact .up (by simp [hidle]) rfl
  · exact .up (by simp [hidle]) rfl

theorem connectHost_sound (hidle : s.busy = .idle) (ulHostIP : Option ℕ) :
    (s.connectHost ulHostIP).Sound := by
  unfold Client.connectHost
  split
  · split
    · exact connect_sound hidle _
    · exact .up (by simp [hidle]) rfl
  · exact .up (by simp [hidle]) rfl

theorem disconnect_sound (h : s.Sound) (hidle : s.busy = .idle) : s.disconnect.Sound := by
  rw [Client.disconnect]
  split
  · exact h.closeSocket .disconnect (fun hd => hd) (by simp) rfl rfl rfl
  next hup =>
    have hstatus := not_isConnected_of_not_isUp hup
    exact h.free (by simp [hidle]) rfl rfl rfl (fun hw => hw) fun hd => ⟨hd, hstatus⟩

theorem cleanUp_sound (h : s.Sound) : s.cleanUp.Sound := by
  rw [Client.cleanUp]
  split
  · exact h.closeSocket .cleanUpDisconnect (fun hd => hd) (by simp) rfl rfl rfl
  next hup => exact h.closeSocket .cleanUp (fun hd => hd) (not_isConnected_of_not_isUp hup) rfl rfl rfl

theorem fire_frame (s : Client) (c : Callback) : (s.fire c).busy = s.busy ∧
    (s.fire c).m_bThreadExit = s.m_bThreadExit ∧ (s.fire c).m_nSocketStatus = s.m_nSocketStatus ∧
    (s.fire c).down = s.down ∧ (s.fire c).queue = s.queue ∧ (s.fire c).threads = s.threads ∧
    (s.fire c).window = s.window := by
  rw [Client.fire]
  split <;> exact ⟨rfl, rfl, rfl, rfl, rfl, rfl, rfl⟩

theorem fire_sound (h : s.Sound) (c : Callback) : (s.fire c).Sound := by
  obtain ⟨hbusy, hexit, hstatus, hdown, hqueue, hthreads, hwindow⟩ := fire_frame s c
  refine h.frame hbusy hexit hstatus hdown fun hd => ⟨?_, ?_⟩
  · rw [hqueue]
    exact (h.down hd).2.2.queue
  · rw [hthreads, hwindow]
    exact (h.down hd).2.2.threads

/-- What the wait leaves of the threads. -/
theorem waitThreadExit_inv {bDelayAwake : Bool} (hs : s.waitThreadExit bDelayAwake = some s') :
    (∃ threads m_hThread, s' = { s with threads, m_hThread }) ∧
      (.connected true ∉ s.others → .connected true ∉ s'.threads) := by
  rw [Client.waitThreadExit] at hs
  split_ifs at hs with hthread hwait hdone
  · cases hs
    refine ⟨⟨_, _, rfl⟩, fun hothers hmem => hothers ?_⟩
    rw [Client.others, if_pos hthread]
    obtain ⟨l, hl⟩ := List.getLast?_eq_some_iff.mp hdone
    rw [hl] at hmem
    rw [hl, List.dropLast_concat]
    rcases List.mem_append.mp hmem with hmem | hmem
    · exact hmem
    · cases List.mem_singleton.mp hmem
  · cases hs
    refine ⟨⟨_, _, rfl⟩, fun hothers hmem => hothers ?_⟩
    rw [Client.others, if_pos hthread]
    rcases List.mem_append.mp hmem with hmem | hmem
    · exact hmem
    · cases List.mem_singleton.mp hmem
  · cases hs
    refine ⟨⟨_, _, rfl⟩, fun hothers => ?_⟩
    rwa [Client.others, if_neg hthread] at hothers

theorem not_mem_others {pos : ThreadPos} (h : pos ∉ s.threads) : pos ∉ s.others := by
  rw [Client.others]
  split
  · exact fun hmem => h (List.dropLast_subset _ hmem)
  · exact h

/-- What comes behind the wait; `Disconnect` has to find everything silent. -/
theorem resume_sound (h : s.Sound) {w : Waiter} (hbusy : s.busy = .waiting w)
    (hquiet : w = .disconnect ∨ w = .cleanUpDisconnect → s.Silent) : (s.resume w).Sound := by
  cases w with
  | disconnect =>
    have hsilent := hquiet (.inl rfl)
    refine ⟨fun _ hw => (by cases hw), fun hw => ?_, fun _ => ?_⟩
    · rcases hw with hw | hw <;> cases hw
    · exact ⟨h.waiting _ hbusy, h.leaving (.inl hbusy), hsilent.queue, hsilent.threads⟩
  | cleanUpDisconnect =>
    have hsilent := hquiet (.inr rfl)
    have hstatus := h.leaving (.inr hbusy)
    exact ⟨fun _ _ => rfl, fun _ => hstatus, fun _ => ⟨rfl, hstatus, hsilent.queue, hsilent.threads⟩⟩
  | cleanUp =>
    rw [Client.resume]
    split
    · exact h.free (by simp) rfl rfl rfl (fun hw => hw) fun hd => ⟨hd, by simp⟩
    · exact h.free (by simp) rfl rfl rfl (fun hw => hw) fun hd => ⟨hd, by simp⟩
  | onClose cleaning =>
    have hfire := fire_sound h (.onClosed 0)
    refine hfire.free (fun w => ?_) rfl rfl rfl (fun hw => hw) fun hd => ⟨hd, (hfire.down hd).2.1⟩
    simp only [Client.resume]
    split <;> simp

/-- The end of a wait. -/
theorem wait_sound (h : s.Sound) {bDelayAwake : Bool} (hok : Quiet s (.wait bDelayAwake))
    (hs : netStep s (.wait bDelayAwake) = some s') : s'.Sound := by
  simp only [netStep] at hs
  split at hs
  next w hbusy =>
    obtain ⟨t, ht, rfl⟩ := Option.map_eq_some_iff.mp hs
    obtain ⟨⟨threads, m_hThread, rfl⟩, hthreads⟩ := waitThreadExit_inv ht
    have hwaited : { s with threads, m_hThread }.Sound := by
      refine h.frame rfl rfl rfl rfl fun hd => ⟨(h.down hd).2.2.queue, fun hwindow => ?_⟩
      exact hthreads (not_mem_others ((h.down hd).2.2.threads hwindow))
    refine resume_sound hwaited hbusy fun hw => ?_
    obtain ⟨hqueue, hothers⟩ := hok (by rcases hw with rfl | rfl <;> simp [hbusy])
    exact ⟨hqueue, fun hwindow => hthreads (hothers hwindow)⟩
  next => cases hs

theorem onClose_sound (h : s.Sound) : s.onClose.Sound := by
  rw [Client.onClose]
  split
  · exact h.closeSocket _ (fun hd => hd) (by simp) rfl rfl rfl
  · exact h

theorem onConnect_sound (h : s.Sound) (hbusy : ∀ w, s.busy ≠ .waiting w) {nErrorCode : ℤ}
    (hcode : s.down = true → nErrorCode ≠ 0) : (s.onConnect nErrorCode).Sound := by
  rw [Client.onConnect]
  split
  next hzero =>
    -- the empty guard: the state changes, so the client must not be down here
    have hset : { s with m_nSocketStatus := .isConnected }.Sound :=
      h.free hbusy rfl rfl rfl (fun hw => hw) fun hd => absurd hzero (hcode hd)
    exact fire_sound hset _
  next =>
    have hset : { s with m_nSocketStatus := .notConnected }.Sound :=
      h.free hbusy rfl rfl rfl (fun hw => hw) fun hd => ⟨hd, by simp⟩
    exact fire_sound hset _

theorem dispatch_sound (h : s.Sound) (hbusy : s.busy = .idle ∨ s.busy = .cleaning)
    (hs : s.dispatch = some s') : s'.Sound := by
  rw [Client.dispatch.eq_def] at hs
  split at hs
  next => cases hs
  next e queue hqueue =>
    cases hs
    have htail : { s with queue }.Sound := by
      refine h.frame rfl rfl rfl rfl fun hd => ⟨fun hmem => ?_, (h.down hd).2.2.threads⟩
      exact (h.down hd).2.2.queue (hqueue ▸ List.mem_cons_of_mem _ hmem)
    cases e with
    | connect bConnected =>
      refine onConnect_sound htail (by rcases hbusy with hb | hb <;> simp [hb]) fun hd => ?_
      have hfail : bConnected ≠ true := by
        rintro rfl
        exact (h.down hd).2.2.queue (hqueue ▸ List.mem_cons_self)
      simp [hfail]
    | read pBytes => exact fire_sound htail _
    | close => exact onClose_sound htail

end Calls

/-! ### Runs -/

theorem netStep_sound (s : Client) (a : NetAct) (s' : Client) (h : s.Sound) (hok : Quiet s a)
    (hs : netStep s a = some s') : s'.Sound := by
  cases a with
  | wait bDelayAwake => exact wait_sound h hok hs
  | threadGo k ok => exact threadGo_sound h hs
  | threadRead k pBytes => exact threadRead_sound h hs
  | threadClose k => exact threadClose_sound h hs
  | create pEventHandler =>
    obtain ⟨hidle, hs⟩ := Option.ite_none_right_eq_some.mp hs
    cases hs
    exact create_sound h hidle pEventHandler
  | connect ulHostIP =>
    obtain ⟨hidle, hs⟩ := Option.ite_none_right_eq_some.mp hs
    cases hs
    exact connect_sound hidle ulHostIP
  | connectHost ulHostIP =>
    obtain ⟨hidle, hs⟩ := Option.ite_none_right_eq_some.mp hs
    cases hs
    exact connectHost_sound hidle ulHostIP
  | disconnect =>
    obtain ⟨hidle, hs⟩ := Option.ite_none_right_eq_some.mp hs
    cases hs
    exact disconnect_sound h hidle
  | cleanUp =>
    obtain ⟨-, hs⟩ := Option.ite_none_right_eq_some.mp hs
    cases hs
    exact cleanUp_sound h
  | dispatch =>
    obtain ⟨hbusy, hs⟩ := Option.ite_none_right_eq_some.mp hs
    exact dispatch_sound h hbusy hs
  | cleaned =>
    obtain ⟨-, hs⟩ := Option.ite_none_right_eq_some.mp hs
    cases hs
    exact h.free (by simp) rfl rfl rfl (fun hw => by cases hw) fun hd => ⟨hd, (h.down hd).2.1⟩

theorem start_sound : ({} : Client).Sound where
  waiting _ hw := by cases hw
  leaving hw := by rcases hw with hw | hw <;> cases hw
  down hd := by cases hd

/-- In a run where every `Disconnect` that returns TRUE leaves no success to be reported, the client
    stays down until `Connect` is called. -/
theorem disconnected_staysDown (acts : List NetAct) (hquiet : Along netStep Quiet {} acts) :
    ∀ s ∈ states netStep {} acts, s.StaysDown := by
  intro s hs hdown
  exact ((invariant netStep_sound acts {} start_sound hquiet s hs).down hdown).2.1

/-- `Disconnect` while `connect` is under way: the thread is ended. -/
def endedRun : List NetAct :=
  [.create true, .connect 1, .threadGo 0 true, .disconnect, .wait false, .cleanUp, .wait false,
    .cleaned]

/-- `Disconnect` behind a connection that was made, whose message is still in the queue. -/
def lateRun : List NetAct :=
  [.create true, .connect 1, .threadGo 0 true, .threadGo 0 true, .threadGo 0 true, .disconnect,
    .threadClose 0, .wait false, .dispatch]

instance (s : Client) : ∀ a, Decidable (Quiet s a)
  | .wait _ => inferInstanceAs (Decidable (_ ∨ _ → _ ∧ (_ → _)))
  | .create _ | .connect _ | .connectHost _ | .disconnect | .cleanUp | .dispatch | .cleaned
  | .threadGo _ _ | .threadRead _ _ | .threadClose _ => .isTrue trivial

theorem disconnected_staysDown_ended : Along netStep Quiet {} endedRun ∧
    (∃ s ∈ states netStep {} endedRun, s.down = true) ∧
    ∀ s ∈ states netStep {} endedRun, s.StaysDown :=
  ⟨by decide, by decide, disconnected_staysDown endedRun (by decide)⟩

theorem disconnected_comesUp : ¬ ∀ acts, ∀ s ∈ states netStep {} acts, s.StaysDown := by
  intro h
  have hlate : ∃ s ∈ states netStep {} lateRun, s.down = true ∧ s.m_nSocketStatus = .isConnected := by
    decide
  obtain ⟨s, hs, hdown, hstatus⟩ := hlate
  exact h lateRun s hs hdown hstatus

end UrlTraveler.Net
