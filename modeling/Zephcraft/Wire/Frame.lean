import Zephcraft.Com.Board
import Zephcraft.Foundations.Reader

/-!
# Wire/Frame — messages on the wire

A frame is a header of 17 bytes and the body of one message. The header is checked to the byte, the
body is left to `postcard`.
-/

namespace Zephcraft.Wire

open List Reader

open Com (beBytes)

/-- The messages that have a body: all but `Disconnect`. -/
inductive Kind where
  | ping | pong | join | forwardJoin | neighbor | neighborReply | shuffle | shuffleReply |
    memberSync | digest
  | pingReq | pingReqAck | piecePush | piecePushAck | offer | grant | pieceRequest | pieceResponse
  | trackerAnnounce | trackerAnnounceAck | trackerResolve | trackerResolveReply | trackerWithdraw
  | availabilityProbe | availabilityAck | releaseSystem

def Kind.typeTag : Kind → ℕ
  | ping => 0x0001 | pong => 0x0002
  | join => 0x0100 | forwardJoin => 0x0101 | neighbor => 0x0102 | neighborReply => 0x0103
  | shuffle => 0x0105 | shuffleReply => 0x0106 | memberSync => 0x0107 | digest => 0x010A
  | pingReq => 0x0108 | pingReqAck => 0x0109
  | piecePush => 0x0012 | piecePushAck => 0x0013 | offer => 0x0014 | grant => 0x0015
  | pieceRequest => 0x0010 | pieceResponse => 0x0011
  | trackerAnnounce => 0x0200 | trackerAnnounceAck => 0x0201 | trackerResolve => 0x0202
  | trackerResolveReply => 0x0203 | trackerWithdraw => 0x0204
  | availabilityProbe => 0x0041 | availabilityAck => 0x0042 | releaseSystem => 0x0043

/-- `tag::DISCONNECT` -/
def disconnectTag : ℕ := 0x0104

/-- The arms of `decode`, but for `tag::DISCONNECT`. -/
def Kind.ofTag : ℕ → Option Kind
  | 0x0001 => ping | 0x0002 => pong
  | 0x0100 => join | 0x0101 => forwardJoin | 0x0102 => neighbor | 0x0103 => neighborReply
  | 0x0105 => shuffle | 0x0106 => shuffleReply | 0x0107 => memberSync | 0x010A => digest
  | 0x0108 => pingReq | 0x0109 => pingReqAck
  | 0x0012 => piecePush | 0x0013 => piecePushAck | 0x0014 => offer | 0x0015 => grant
  | 0x0010 => pieceRequest | 0x0011 => pieceResponse
  | 0x0200 => trackerAnnounce | 0x0201 => trackerAnnounceAck | 0x0202 => trackerResolve
  | 0x0203 => trackerResolveReply | 0x0204 => trackerWithdraw
  | 0x0041 => availabilityProbe | 0x0042 => availabilityAck | 0x0043 => releaseSystem
  | _ => none

theorem Kind.ofTag_eq_some {t : ℕ} {k : Kind} : ofTag t = some k ↔ k.typeTag = t := by
  refine ⟨fun h => ?_, ?_⟩
  · unfold ofTag at h
    split at h <;> cases h <;> rfl
  · rintro rfl
    cases k <;> rfl

/-- The bodies, as `postcard` writes and reads them. -/
structure Postcard where
  Body : Kind → Type
  toAllocvec {k : Kind} : Body k → Bytes
  fromBytes (k : Kind) : Bytes → Except String (Body k)
  fromBytes_toAllocvec {k : Kind} (b : Body k) : fromBytes k (toAllocvec b) = .ok b

/-- The bodies that are one id: the nonce of `Ping` and `Pong`, the hash of `Digest`, the cid of
`AvailabilityProbe` and `ReleaseSystem`. An id is written as it is, and what stands behind it is not
looked at. -/
def Postcard.ids : Postcard where
  Body
    | .ping | .pong | .digest | .availabilityProbe | .releaseSystem => B32
    | _ => Empty
  toAllocvec {k} b := match k, b with
    | .ping, b | .pong, b | .digest, b | .availabilityProbe, b | .releaseSystem, b => B32.toBytes b
  fromBytes k s :=
    let read :=
      (bytes32 s).elim (.error "Hit the end of buffer, expected more data") fun b => .ok b.1
    match k with
    | .ping | .pong | .digest | .availabilityProbe | .releaseSystem => read
    | _ => .error "not a body of this kind"
  fromBytes_toAllocvec {k} b := by
    have hread : ∀ b : B32, bytes32 b.toBytes = some (b, []) := fun b =>
      (congrArg _ (append_nil _)).symm.trans (reads_bytes32 b [])
    cases k <;> first | exact b.elim | simp only [hread, Option.elim_some]

/-- What a frame carries. -/
inductive Message (P : Postcard) where
  | disconnect
  | body {k : Kind} (b : P.Body k)

/-- A message and its header. -/
structure Frame (P : Postcard) where
  version : Byte
  hlcTs : U64
  message : Message P

/-- How decoding fails. -/
inductive WireError where
  | tooShort (len : ℕ)
  | badVersion (version : Byte)
  | lengthMismatch (declared actual : ℕ)
  | tooLarge (len : ℕ)
  | unknownType (tag : ℕ)
  | malformed (tag : ℕ) (reason : String)

/-- `VERSION` -/
def wireVersion : Byte := 1

/-- `HEADER_LEN` -/
def headerLen : ℕ := 17

/-- `MAX_MESSAGE_SIZE` -/
def maxMessageSize : ℕ := 4 * 1024 * 1024

variable {P : Postcard}

namespace Message

def typeTag : Message P → ℕ
  | disconnect => disconnectTag
  | body (k := k) _ => k.typeTag

def payload : Message P → Bytes
  | disconnect => []
  | body b => P.toAllocvec b

/-- The message that a payload under a tag is read as. -/
def read (P : Postcard) (tag : ℕ) (payload : Bytes) : Except WireError (Message P) :=
  if tag = disconnectTag then .ok disconnect
  else match Kind.ofTag tag with
    | none => .error (.unknownType tag)
    | some k => match P.fromBytes k payload with
      | .ok b => .ok (body b)
      | .error reason => .error (.malformed tag reason)

end Message

/-- A header with a payload behind it. -/
def layout (tag : ℕ) (version : Byte) (hlcTs : U64) (len : ℕ) (payload : Bytes) : Bytes :=
  beBytes 4 tag ++ version :: beBytes 8 hlcTs.val ++ beBytes 4 len ++ payload

/-- In a build without debug assertions. -/
def encode (message : Message P) (hlcTs : U64) : Bytes :=
  layout message.typeTag wireVersion hlcTs message.payload.length message.payload

/-- `from_be_bytes` -/
def ofBeBytes (s : Bytes) : ℕ := s.foldl (fun n b => 256 * n + b.val) 0

def decode (P : Postcard) (bytes : Bytes) : Except WireError (Frame P) :=
  if maxMessageSize < bytes.length then .error (.tooLarge bytes.length)
  else if bytes.length < headerLen then .error (.tooShort bytes.length)
  else
    let typeTag := ofBeBytes (bytes.take 4)
    let version := (bytes.drop 4).headD 0
    if version ≠ wireVersion then .error (.badVersion version)
    else
      let hlcTs := ofBeBytes ((bytes.drop 5).take 8)
      let declared := ofBeBytes ((bytes.drop 13).take 4)
      let payload := bytes.drop headerLen
      if declared ≠ payload.length then .error (.lengthMismatch declared payload.length)
      else do return ⟨version, Word.truncate hlcTs, ← Message.read P typeTag payload⟩

/-! ## The body -/

namespace Message

theorem typeTag_lt (m : Message P) : m.typeTag < 256 ^ 4 := by
  cases m with
  | disconnect => norm_num [typeTag, disconnectTag]
  | @body k b => cases k <;> norm_num [typeTag, Kind.typeTag]

theorem read_payload (m : Message P) : read P m.typeTag m.payload = .ok m := by
  cases m with
  | disconnect => rfl
  | @body k b =>
    have hk : Kind.ofTag k.typeTag = some k := Kind.ofTag_eq_some.mpr rfl
    have hd : k.typeTag ≠ disconnectTag := by cases k <;> decide
    simp [read, typeTag, payload, hk, hd, P.fromBytes_toAllocvec]

theorem typeTag_read {tag : ℕ} {payload : Bytes} {m : Message P} (h : read P tag payload = .ok m) :
    m.typeTag = tag := by
  unfold read at h
  split_ifs at h with hd
  · cases h
    exact hd.symm
  · split at h
    · cases h
    · next k hk =>
      split at h <;> cases h
      exact Kind.ofTag_eq_some.mp hk

end Message

/-! ## The header -/

theorem length_beBytes (k n : ℕ) : (beBytes k n).length = k := by simp [beBytes]

theorem ofBeBytes_beBytes (k n : ℕ) : ofBeBytes (beBytes k n) = n % 256 ^ k :=
  foldl_reverse_leBytes k n

theorem exists_beBytes {k : ℕ} {s : Bytes} (h : k ≤ s.length) :
    ∃ n < 256 ^ k, ∃ t, s = beBytes k n ++ t := by
  have hk : (s.take k).length = k := by simp [h]
  have hb := leBytes_foldl (s.take k)
  rw [hk] at hb
  refine ⟨ofBeBytes (s.take k), (foldl_bytes_lt _).trans_eq (by rw [hk]), s.drop k, ?_⟩
  rw [beBytes, ofBeBytes, hb, reverse_reverse, take_append_drop]

theorem exists_layout {bytes : Bytes} (h : headerLen ≤ bytes.length) :
    ∃ tag < 256 ^ 4, ∃ v ts, ∃ len < 256 ^ 4, ∃ payload, bytes = layout tag v ts len payload := by
  obtain ⟨tag, htag, s, rfl⟩ := exists_beBytes (k := 4) (le_trans (by decide) h)
  cases s with
  | nil => simp [length_beBytes, headerLen] at h
  | cons v s =>
    simp only [headerLen, length_append, length_beBytes, length_cons] at h
    obtain ⟨ts, hts, s, rfl⟩ := exists_beBytes (k := 8) (s := s) (by omega)
    simp only [length_append, length_beBytes] at h
    obtain ⟨len, hlen, s, rfl⟩ := exists_beBytes (k := 4) (s := s) (by omega)
    exact ⟨tag, htag, v, ⟨ts, by omega⟩, len, hlen, s, by simp [layout]⟩

theorem length_layout {tag len : ℕ} {v : Byte} {ts : U64} {payload : Bytes} :
    (layout tag v ts len payload).length = headerLen + payload.length := by
  simp [layout, length_beBytes, headerLen]
  omega

theorem decode_layout {tag len : ℕ} {v : Byte} {ts : U64} {payload : Bytes} (htag : tag < 256 ^ 4) :
    decode P (layout tag v ts len payload)
      = if maxMessageSize < headerLen + payload.length then .error
        (.tooLarge (headerLen + payload.length))
        else if v ≠ wireVersion then .error (.badVersion v)
        else if len % 256 ^ 4 ≠ payload.length then .error
          (.lengthMismatch (len % 256 ^ 4) payload.length)
        else do return ⟨v, ts, ← Message.read P tag payload⟩ := by
  have hts : Word.truncate (ts.val % 256 ^ 8) = ts :=
    Fin.ext (by rw [Word.val_truncate]; have := ts.isLt; omega)
  rw [decode, length_layout, if_neg (by omega : ¬ headerLen + payload.length < headerLen)]
  have hdrop : ∀ k n i, k ≤ i → (beBytes k n).drop i = [] := fun k n i h =>
    drop_eq_nil_of_le (by rwa [length_beBytes])
  simp [-Nat.reducePow, layout, headerLen, drop_append, length_beBytes, hdrop,
    ofBeBytes_beBytes, hts, Nat.mod_eq_of_lt htag]

/-! ## What is accepted -/

/-- **A message is read back as it was sent, or its frame is refused as too large**, whatever its
length. -/
theorem frame_round_trip (P : Postcard) (m : Message P) (ts : U64) :
    decode P (encode m ts) = if maxMessageSize < headerLen + m.payload.length
      then .error (.tooLarge (headerLen + m.payload.length)) else .ok ⟨wireVersion, ts, m⟩ := by
  rw [encode, decode_layout m.typeTag_lt]
  split_ifs with hmax hv hlen
  · rfl
  · cases hv rfl
  · -- the length is cut to 32 bits, but not below the limit
    rw [maxMessageSize] at hmax
    exact absurd (Nat.mod_eq_of_lt (by omega)) hlen
  · rw [m.read_payload]
    rfl

/-- A ping. -/
theorem frame_round_trip_ping : decode .ids (encode (P := .ids) (.body (k := .ping) (5 : B32)) 9)
    = .ok ⟨wireVersion, 9, .body (k := .ping) (5 : B32)⟩ :=
  (frame_round_trip .ids (.body (k := .ping) (5 : B32)) 9).trans (if_neg (by decide +kernel))

/-- **The frames that are accepted**: the header is the only one for the message, its time and the
length of the payload, and the payload is one that reads as the message. -/
theorem accepted_iff (P : Postcard) (bytes : Bytes) (f : Frame P) :
    decode P bytes = .ok f ↔ f.version = wireVersion ∧ bytes.length ≤ maxMessageSize
      ∧ ∃ payload, bytes = layout f.message.typeTag wireVersion f.hlcTs payload.length payload
        ∧ Message.read P f.message.typeTag payload = .ok f.message := by
  constructor
  · intro h
    by_cases hshort : bytes.length < headerLen
    · have hmax : headerLen < maxMessageSize := by decide
      rw [decode, if_neg (by omega), if_pos hshort] at h
      cases h
    · -- with room for a header it is a layout, and the fields are read back
      obtain ⟨tag, htag, v, ts, len, hlen, payload, rfl⟩ := exists_layout (not_lt.mp hshort)
      rw [decode_layout htag, Nat.mod_eq_of_lt hlen] at h
      split_ifs at h with hmax hv hl
      obtain ⟨m, hm, hf⟩ := Except.bind_eq_ok.mp h
      cases hf
      obtain rfl := Message.typeTag_read hm
      obtain rfl := not_not.mp hv
      obtain rfl := not_not.mp hl
      exact ⟨rfl, by rw [length_layout]; omega, payload, rfl, hm⟩
  · rintro ⟨hv, hmax, payload, rfl, hm⟩
    rw [length_layout] at hmax
    have hlen : payload.length % 256 ^ 4 = payload.length :=
      Nat.mod_eq_of_lt (by rw [maxMessageSize] at hmax; omega)
    rw [decode_layout f.message.typeTag_lt, if_neg (by omega), hlen, hm]
    simp [← hv, pure, Except.pure, bind, Except.bind]

/-- A nonce with a byte behind it. -/
def longNonce : Bytes := B32.toBytes 5 ++ [0]

theorem accepted_iff_longNonce :
    decode .ids (layout Kind.ping.typeTag wireVersion 9 longNonce.length longNonce)
    = .ok ⟨wireVersion, 9, .body (k := .ping) (5 : B32)⟩ := by
  have hread : bytes32 longNonce = some (5, [0]) := reads_bytes32 5 [0]
  have hbody : Postcard.ids.fromBytes .ping longNonce = .ok (5 : B32) := by
    simp only [Postcard.ids, hread, Option.elim_some]
  refine (accepted_iff .ids _ ⟨wireVersion, 9, .body (k := .ping) (5 : B32)⟩).mpr
    ⟨rfl, by decide +kernel, longNonce, rfl, ?_⟩
  simp only [Message.read, Message.typeTag, Kind.ofTag_eq_some.mpr rfl, hbody]
  rfl

end Zephcraft.Wire
