import UrlTraveler.Schemes.Runs

/-! `ConnAndRecvThread`: the cache for received bytes.

    Chunks are collected in a buffer and posted together. The buffer has the packet size of the
    moment it was allocated; whether a chunk still fits is asked of the packet size of now:

        size 11    chunk 10240    buffer of 11000, 10240 bytes in it
        size 255   chunk 10240    20480 < 255000, copied behind them: 20480 bytes in 11000

    A buffer is held only while bytes are in it and caching is on, so no copy goes to a null buffer,
    and every byte is posted once. The thread is not told to exit, packets can be posted, and memory
    can be had. -/

namespace UrlTraveler.Net
open Runs

abbrev Bytes := List UInt8

def THREAD_RECV_LEN : ℕ := 10 * 1024

/-- What `recv` gives when there is something. -/
structure Chunk where
  bytes : Bytes
  pos : 0 < bytes.length
  le : bytes.length ≤ THREAD_RECV_LEN

/-- The options, the variables of the loop, and what has gone in and out. A cached buffer is known by
    the size it was allocated with; `szCached` are the `nCacheDataSize` bytes in it. -/
structure Receiver where
  optCachePacket : Bool := true
  byMaxPacketSize : UInt8
  bCachePacket : Bool := false
  pCachedBuffer : Option ℕ := none
  szCached : Bytes := []
  received : List Bytes := []
  posted : List Bytes := []
  closed : Bool := false
  overrun : Bool := false
  nullCopy : Bool := false

namespace Receiver

/-- The packet size in bytes. -/
def maxBytes (s : Receiver) : ℕ := s.byMaxPacketSize.toNat * 1000

def cacheOn (s : Receiver) : Bool := s.optCachePacket && THREAD_RECV_LEN < s.maxBytes

def setMaxPacketSize (s : Receiver) (byPacketSize : UInt8) : Receiver :=
  if s.optCachePacket then { s with byMaxPacketSize := byPacketSize } else s

/-- `PostPacket` of the cached bytes, and a null buffer after it. -/
def postCached (s : Receiver) : Receiver :=
  { s with posted := s.posted ++ [s.szCached], pCachedBuffer := none, szCached := [] }

/-- `memcpy(pCachedBuffer + nCacheDataSize, szBuffer, nLen)`. -/
def memcpyCached (s : Receiver) (szBuffer : Bytes) : Receiver :=
  { s with
    szCached := s.szCached ++ szBuffer
    nullCopy := s.nullCopy || s.pCachedBuffer.isNone
    overrun := s.overrun || s.pCachedBuffer.any fun n => decide (n < s.szCached.length + szBuffer.length) }

/-- The bytes that are cached, where there are any. -/
def hasCached (s : Receiver) : Bool := s.pCachedBuffer.isSome && 0 < s.szCached.length

/-- The top of the loop: cached bytes are posted after a time-out, when they have reached the packet
    size, and when caching has been switched off. -/
def adjust (s : Receiver) (timedOut : Bool) : Receiver :=
  let s' :=
    if s.bCachePacket && s.hasCached &&
        (timedOut || s.maxBytes ≤ s.szCached.length || !s.cacheOn) then s.postCached
    else s
  { s' with bCachePacket := s.cacheOn }

@[simp] theorem adjust_closed (s : Receiver) (b : Bool) : (s.adjust b).closed = s.closed := by
  rw [adjust]
  split <;> rfl

@[simp] theorem adjust_received (s : Receiver) (b : Bool) : (s.adjust b).received = s.received := by
  rw [adjust]
  split <;> rfl

@[simp] theorem adjust_maxBytes (s : Receiver) (b : Bool) : (s.adjust b).maxBytes = s.maxBytes := by
  rw [adjust]
  split <;> rfl

/-- A buffer of the packet size, if there is none, and the chunk into it. -/
def addCached (s : Receiver) (szBuffer : Bytes) : Receiver :=
  let s := if s.pCachedBuffer.isNone then { s with pCachedBuffer := some s.maxBytes } else s
  s.memcpyCached szBuffer

def cachePacket (s : Receiver) (szBuffer : Bytes) : Receiver :=
  if s.maxBytes ≤ s.szCached.length + szBuffer.length then
    let bDataCached := s.szCached.length + szBuffer.length = s.maxBytes
    let s := if bDataCached then s.memcpyCached szBuffer else s
    let s := if s.hasCached then s.postCached else s
    if bDataCached then s else s.addCached szBuffer
  else s.addCached szBuffer

/-- A round of the loop with something to receive. -/
def onChunk (s : Receiver) (szBuffer : Bytes) (timedOut : Bool) : Receiver :=
  let s := { s.adjust timedOut with received := s.received ++ [szBuffer] }
  if s.bCachePacket then s.cachePacket szBuffer else { s with posted := s.posted ++ [szBuffer] }

/-- The round in which the peer has closed. -/
def onClose (s : Receiver) (timedOut : Bool) : Receiver :=
  let s := s.adjust timedOut
  let s := if s.bCachePacket && s.hasCached then s.postCached else s
  { s with closed := true }

end Receiver

inductive RecvAct
  | setMaxPacketSize (byPacketSize : UInt8)
  | idle (timedOut : Bool)
  | chunk (szBuffer : Chunk) (timedOut : Bool)
  | close (timedOut : Bool)

/-- After the close packet the thread is over. -/
def recvStep (s : Receiver) (a : RecvAct) : Option Receiver :=
  if s.closed then none
  else match a with
    | .setMaxPacketSize byPacketSize => some (s.setMaxPacketSize byPacketSize)
    | .idle timedOut => some (s.adjust timedOut)
    | .chunk szBuffer timedOut => some (s.onChunk szBuffer.bytes timedOut)
    | .close timedOut => some (s.onClose timedOut)

/-- Bytes are cached nowhere, or in a buffer of at least the new packet size. -/
def NotRaised (s : Receiver) : RecvAct → Prop
  | .setMaxPacketSize byPacketSize => ∀ n ∈ s.pCachedBuffer, byPacketSize.toNat * 1000 ≤ n
  | _ => True

instance (s : Receiver) : DecidablePred (NotRaised s)
  | .setMaxPacketSize _ => inferInstanceAs (Decidable (∀ _ ∈ _, _))
  | .idle _ | .chunk _ _ | .close _ => inferInstanceAs (Decidable True)

/-- Nothing was copied past the end of the buffer or to a null one; and with the close packet, what
    was posted is what was received. -/
structure Receiver.Exact (s : Receiver) : Prop where
  overrun : s.overrun = false
  nullCopy : s.nullCopy = false
  bytes : s.closed = true → s.posted.flatten = s.received.flatten

/-! ### The cache -/

/-- The cache with `rest` still to go into it. -/
structure Receiver.Good (s : Receiver) (rest : Bytes) : Prop where
  overrun : s.overrun = false
  nullCopy : s.nullCopy = false
  held : s.pCachedBuffer.isSome = true ↔ s.szCached ≠ []
  on : s.szCached ≠ [] → s.bCachePacket = true
  room : ∀ n ∈ s.pCachedBuffer, s.maxBytes ≤ n
  bytes : s.posted.flatten ++ (s.szCached ++ rest) = s.received.flatten
  done : s.closed = true → s.szCached = [] ∧ rest = []

namespace Receiver.Good
variable {s : Receiver} {rest : Bytes}

theorem exact (h : s.Good []) : s.Exact where
  overrun := h.overrun
  nullCopy := h.nullCopy
  bytes hclosed := by
    have hbytes := h.bytes
    rwa [(h.done hclosed).1, List.append_nil, List.append_nil] at hbytes

theorem hasCached_iff (h : s.Good rest) : s.hasCached = true ↔ s.szCached ≠ [] := by
  rw [Receiver.hasCached, Bool.and_eq_true, h.held, decide_eq_true_iff, List.length_pos_iff, and_self]

theorem nil_of_not_hasCached (h : s.Good rest) (hc : s.hasCached ≠ true) : s.szCached = [] :=
  not_not.mp fun hne => hc (h.hasCached_iff.mpr hne)

theorem postCached (h : s.Good rest) (hopen : s.closed = false) : s.postCached.Good rest where
  overrun := h.overrun
  nullCopy := h.nullCopy
  held := by simp [Receiver.postCached]
  on hne := absurd rfl hne
  room n hn := by cases hn
  bytes := by
    rw [Receiver.postCached, List.flatten_append, List.flatten_singleton, List.append_assoc,
      List.nil_append]
    exact h.bytes
  done hclosed := absurd hclosed (by simp [Receiver.postCached, hopen])

/-- A copy into a buffer that has room: the one in use, or a new one. -/
theorem memcpyCached (h : s.Good rest) (hopen : s.closed = false) (hne : rest ≠ [])
    (hon : s.bCachePacket = true) {n : ℕ} (hmax : s.maxBytes ≤ n)
    (hroom : s.szCached.length + rest.length ≤ n) :
    ({ s with pCachedBuffer := some n }.memcpyCached rest).Good [] where
  overrun := by simp [Receiver.memcpyCached, h.overrun, hroom]
  nullCopy := by simp [Receiver.memcpyCached, h.nullCopy]
  held := by simp [Receiver.memcpyCached, hne]
  on _ := hon
  room m hm := by
    cases hm
    exact hmax
  bytes := by
    rw [List.append_nil]
    exact h.bytes
  done hclosed := absurd hclosed (by simp [Receiver.memcpyCached, hopen])

theorem addCached (h : s.Good rest) (hopen : s.closed = false) (hne : rest ≠ [])
    (hon : s.bCachePacket = true) (hroom : s.szCached.length + rest.length ≤ s.maxBytes) :
    (s.addCached rest).Good [] := by
  cases hbuf : s.pCachedBuffer with
  | some n =>
    have hmax := h.room n hbuf
    have hcopy := h.memcpyCached hopen hne hon hmax (hroom.trans hmax)
    rw [← hbuf] at hcopy
    rw [Receiver.addCached, hbuf]
    exact hcopy
  | none =>
    rw [Receiver.addCached, hbuf]
    exact h.memcpyCached hopen hne hon le_rfl hroom

/-- The top of the loop leaves bytes in the cache only while caching is on. -/
theorem adjust (h : s.Good rest) (hopen : s.closed = false) (timedOut : Bool) :
    (s.adjust timedOut).Good rest := by
  rw [Receiver.adjust]
  split
  next =>
    have hpost := h.postCached hopen
    exact ⟨hpost.overrun, hpost.nullCopy, hpost.held, fun hne => absurd rfl hne, hpost.room,
      hpost.bytes, hpost.done⟩
  next hkeep =>
    refine ⟨h.overrun, h.nullCopy, h.held, fun hne => ?_, h.room, h.bytes, h.done⟩
    by_contra hoff
    replace hoff : s.cacheOn = false := Bool.eq_false_iff.mpr hoff
    refine hkeep ?_
    rw [h.on hne, h.hasCached_iff.mpr hne, hoff]
    simp

/-- A chunk, while caching is on. -/
theorem cachePacket (h : s.Good rest) (hopen : s.closed = false) (hne : rest ≠ [])
    (hlen : rest.length ≤ THREAD_RECV_LEN) (hon : s.bCachePacket = true)
    (hmax : THREAD_RECV_LEN < s.maxBytes) : (s.cachePacket rest).Good [] := by
  rw [Receiver.cachePacket]
  split
  next hfull =>
    by_cases heq : s.szCached.length + rest.length = s.maxBytes
    · -- it fills the packet: the buffer cannot be null, a chunk alone is smaller than a packet
      have hcached : s.szCached ≠ [] := by
        intro hnil
        rw [hnil, List.length_nil] at heq
        omega
      obtain ⟨n, hn⟩ := Option.isSome_iff_exists.mp (h.held.mpr hcached)
      have hcopy := h.memcpyCached hopen hne hon (h.room n hn) (heq.trans_le (h.room n hn))
      rw [← hn] at hcopy
      have hmore : (s.memcpyCached rest).hasCached = true := by
        rw [hcopy.hasCached_iff]
        simp [Receiver.memcpyCached, hne]
      simp only [heq, if_true, hmore]
      exact hcopy.postCached hopen
    · simp only [heq, if_false]
      by_cases hcached : s.hasCached = true
      · rw [if_pos hcached]
        refine (h.postCached hopen).addCached hopen hne hon ?_
        rw [Receiver.postCached, List.length_nil, Nat.zero_add]
        exact hlen.trans hmax.le
      · rw [if_neg hcached]
        refine h.addCached hopen hne hon ?_
        rw [h.nil_of_not_hasCached hcached, List.length_nil, Nat.zero_add]
        exact hlen.trans hmax.le
  next hfits => exact h.addCached hopen hne hon (not_le.mp hfits).le

theorem onChunk (h : s.Good []) (hopen : s.closed = false) (szBuffer : Chunk) (timedOut : Bool) :
    (s.onChunk szBuffer.bytes timedOut).Good [] := by
  have hadj := h.adjust hopen timedOut
  have hopen' : (s.adjust timedOut).closed = false := by rw [adjust_closed, hopen]
  have hne : szBuffer.bytes ≠ [] := List.ne_nil_of_length_pos szBuffer.pos
  have hgood : { s.adjust timedOut with received := s.received ++ [szBuffer.bytes] }.Good
      szBuffer.bytes := by
    refine ⟨hadj.overrun, hadj.nullCopy, hadj.held, hadj.on, hadj.room, ?_, fun hclosed => ?_⟩
    · have hbytes := hadj.bytes
      rw [List.append_nil, adjust_received] at hbytes
      rw [List.flatten_append, List.flatten_singleton, ← hbytes, List.append_assoc]
    · cases hopen'.symm.trans hclosed
  rw [Receiver.onChunk]
  split
  next hon =>
    have hcache : s.cacheOn = true := hon
    rw [Receiver.cacheOn, Bool.and_eq_true, decide_eq_true_iff] at hcache
    refine hgood.cachePacket hopen' hne szBuffer.le hon (hcache.2.trans_eq ?_)
    exact (adjust_maxBytes s timedOut).symm
  next hoff =>
    -- nothing is cached while caching is off
    have hnil : (s.adjust timedOut).szCached = [] := not_not.mp fun hcached => hoff (hadj.on hcached)
    refine ⟨hgood.overrun, hgood.nullCopy, hgood.held, hgood.on, hgood.room, ?_, fun hclosed => ?_⟩
    · have hbytes := hgood.bytes
      rw [hnil, List.nil_append] at hbytes
      rw [hnil, List.flatten_append, List.flatten_singleton, List.append_nil, List.append_nil, hbytes]
    · cases hopen'.symm.trans hclosed

theorem onClose (h : s.Good []) (hopen : s.closed = false) (timedOut : Bool) :
    (s.onClose timedOut).Good [] := by
  have hadj := h.adjust hopen timedOut
  have hopen' : (s.adjust timedOut).closed = false := by rw [adjust_closed, hopen]
  have hlast : ∀ t : Receiver, t.Good [] → t.szCached = [] → { t with closed := true }.Good [] :=
    fun t ht hnil => ⟨ht.overrun, ht.nullCopy, ht.held, ht.on, ht.room, ht.bytes, fun _ => ⟨hnil, rfl⟩⟩
  rw [Receiver.onClose]
  split
  next => exact hlast _ (hadj.postCached hopen') rfl
  next hkeep =>
    refine hlast _ hadj (not_not.mp fun hne => hkeep ?_)
    rw [hadj.on hne, hadj.hasCached_iff.mpr hne]
    rfl

theorem setMaxPacketSize (h : s.Good []) {byPacketSize : UInt8}
    (hok : ∀ n ∈ s.pCachedBuffer, byPacketSize.toNat * 1000 ≤ n) :
    (s.setMaxPacketSize byPacketSize).Good [] := by
  rw [Receiver.setMaxPacketSize]
  split
  · exact ⟨h.overrun, h.nullCopy, h.held, h.on, hok, h.bytes, h.done⟩
  · exact h

end Receiver.Good

/-! ### Runs -/

theorem recvStep_good {s s' : Receiver} {a : RecvAct} (h : s.Good []) (hok : NotRaised s a)
    (hs : recvStep s a = some s') : s'.Good [] := by
  unfold recvStep at hs
  split at hs
  · cases hs
  next hclosed =>
    have hopen : s.closed = false := Bool.eq_false_iff.mpr hclosed
    cases a with
    | setMaxPacketSize byPacketSize =>
      cases hs
      exact h.setMaxPacketSize hok
    | idle timedOut =>
      cases hs
      exact h.adjust hopen timedOut
    | chunk szBuffer timedOut =>
      cases hs
      exact h.onChunk hopen szBuffer timedOut
    | close timedOut =>
      cases hs
      exact h.onClose hopen timedOut

/-- The thread before its loop. -/
def Receiver.start (optCachePacket : Bool) (byMaxPacketSize : UInt8) : Receiver :=
  let s : Receiver := { optCachePacket, byMaxPacketSize }
  { s with bCachePacket := s.cacheOn }

theorem start_good (optCachePacket : Bool) (byMaxPacketSize : UInt8) :
    (Receiver.start optCachePacket byMaxPacketSize).Good [] where
  overrun := rfl
  nullCopy := rfl
  held := by simp [Receiver.start]
  on hne := absurd rfl hne
  room n hn := by cases hn
  bytes := rfl
  done hclosed := by cases hclosed

/-- The packet size is never raised above the size of a buffer that holds bytes: then no copy goes
    past its end, none to a null buffer, and no byte is lost or invented. -/
theorem packetCache_exact (optCachePacket : Bool) (byMaxPacketSize : UInt8) (acts : List RecvAct)
    (hok : Along recvStep NotRaised (.start optCachePacket byMaxPacketSize) acts) :
    ∀ s ∈ states recvStep (.start optCachePacket byMaxPacketSize) acts, s.Exact := by
  have hstep : ∀ (s : Receiver) (a : RecvAct) (s' : Receiver), s.Good [] → NotRaised s a →
      recvStep s a = some s' → s'.Good [] := fun _ _ _ => recvStep_good
  exact fun s hs => (invariant hstep acts _ (start_good _ _) hok s hs).exact

/-- Chunks into a buffer of 255000 bytes, the packet size lowered between them. -/
def loweredSize : List RecvAct :=
  [.chunk ⟨[1, 2], by decide, by decide⟩ false, .setMaxPacketSize 20,
    .chunk ⟨[3], by decide, by decide⟩ false, .idle true, .close false]

theorem packetCache_exact_loweredSize :
    Along recvStep NotRaised (.start true 255) loweredSize ∧
      ∀ s ∈ states recvStep (.start true 255) loweredSize, s.Exact := by
  have hok : Along recvStep NotRaised (.start true 255) loweredSize := by decide
  exact ⟨hok, packetCache_exact true 255 loweredSize hok⟩

/-- As much as `recv` can give. -/
def fullChunk : Chunk where
  bytes := List.replicate THREAD_RECV_LEN 0
  pos := by
    rw [List.length_replicate]
    decide
  le := by rw [List.length_replicate]

/-- Two chunks for a buffer of 11000 bytes, the packet size raised between them. -/
def raisedSize : List RecvAct := [.chunk fullChunk false, .setMaxPacketSize 255, .chunk fullChunk false]

theorem fullChunk_length : fullChunk.bytes.length = 10240 := List.length_replicate

/-- A full chunk in a buffer of 11000 bytes, under some packet size. -/
def oneCached (byMaxPacketSize : UInt8) : Receiver where
  byMaxPacketSize := byMaxPacketSize
  bCachePacket := true
  pCachedBuffer := some 11000
  szCached := fullChunk.bytes
  received := [fullChunk.bytes]

theorem start_onChunk : (Receiver.start true 11).onChunk fullChunk.bytes false = oneCached 11 := by
  simp [Receiver.onChunk, Receiver.adjust, Receiver.start, Receiver.cacheOn, Receiver.maxBytes,
    Receiver.hasCached, Receiver.cachePacket, Receiver.addCached, Receiver.memcpyCached,
    THREAD_RECV_LEN, fullChunk_length, oneCached]

theorem oneCached_onChunk : ((oneCached 255).onChunk fullChunk.bytes false).overrun = true := by
  simp [Receiver.onChunk, Receiver.adjust, Receiver.cacheOn, Receiver.maxBytes, Receiver.hasCached,
    Receiver.cachePacket, Receiver.addCached, Receiver.memcpyCached, THREAD_RECV_LEN,
    fullChunk_length, oneCached]

/-- 20480 bytes in a buffer of 11000. -/
theorem packetCache_not_exact :
    ¬ ∀ s ∈ states recvStep (.start true 11) raisedSize, s.Exact := by
  intro h
  have hrun : raisedSize.foldlM recvStep (.start true 11) =
      some ((oneCached 255).onChunk fullChunk.bytes false) := by
    have hfirst : recvStep (.start true 11) (.chunk fullChunk false) = some (oneCached 11) :=
      congrArg some start_onChunk
    rw [raisedSize, foldlM_cons_some hfirst]
    rfl
  have hover := (h _ (mem_states_foldlM hrun)).overrun
  rw [oneCached_onChunk] at hover
  cases hover

end UrlTraveler.Net
