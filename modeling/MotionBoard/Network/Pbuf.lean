import Mathlib.Data.List.Basic
import Mathlib.Algebra.Order.Group.Nat

/-!
# Sending a packet buffer

`pbuf_header`, `pbuf_take`, `udp_sendto_if`, `ip_output_if` and `etharp_output` of lwIP 1.3.1 for a
bound control block, a known route and a resolved address, and for datagrams within the MTU. They
write a header in front of the payload of the buffer they are given and leave its payload pointer
there. What the headers say is left open.
-/

namespace MotionBoard.Lwip

abbrev pbufTransportHlen : Nat := 20
abbrev pbufIpHlen : Nat := 20
abbrev pbufLinkHlen : Nat := 14
abbrev pbufPoolBufsize : Nat := 1500
abbrev udpHlen : Nat := 8
abbrev ipHlen : Nat := 20
abbrev ethHlen : Nat := 14

/-- `LWIP_MEM_ALIGN` behind an aligned address, for `MEM_ALIGNMENT` 4. -/
def lwipMemAlign (offset : Nat) : Nat := (offset + 3) / 4 * 4

/-- A buffer with the memory behind its `struct pbuf`, and the offset of its payload there. The
total length of a chain of buffers is the sum of their lengths. -/
structure Pbuf where
  memory : List UInt8
  payload : Nat
  len : Nat
  deriving DecidableEq, Repr

/-- What the layers write in front of a packet of some length. -/
structure Headers where
  udp : Nat → Vector UInt8 udpHlen
  ip : Nat → Vector UInt8 ipHlen
  eth : Vector UInt8 ethHlen

namespace Pbuf

def write (p : Pbuf) (bytes : List UInt8) : Pbuf :=
  { p with memory :=
      p.memory.take p.payload ++ bytes ++ p.memory.drop (p.payload + bytes.length) }

def bytes (p : Pbuf) : List UInt8 := (p.memory.drop p.payload).take p.len

def pbufAlloc (memory : Vector UInt8 pbufPoolBufsize) (length : Nat) : Pbuf :=
  { memory := memory.toList
    payload := lwipMemAlign (pbufTransportHlen + pbufIpHlen + pbufLinkHlen)
    len := length }

def pbufTake (buf : Pbuf) (data : List UInt8) : Pbuf :=
  if buf.len < data.length then buf else buf.write data

end Pbuf

/-- A packet, from the buffer in front on. -/
abbrev Chain := List Pbuf

namespace Chain

def totLen : Chain → Nat
  | [] => 0
  | p :: rest => p.len + totLen rest

def bytes (q : Chain) : List UInt8 := q.flatMap Pbuf.bytes

def pbufHeader (increment : Nat) : Chain → Option Chain
  | [] => none
  | p :: rest =>
      if p.payload < increment then none
      else some ({ p with payload := p.payload - increment, len := p.len + increment } :: rest)

def writeFirst (header : List UInt8) : Chain → Chain
  | [] => []
  | p :: rest => p.write header :: rest

def etharpOutput (headers : Headers) (q : Chain) : Chain × Option (List UInt8) :=
  match q.pbufHeader ethHlen with
  | none => (q, none)
  | some q =>
      let q := q.writeFirst headers.eth.toList
      (q, some q.bytes)

def ipOutputIf (headers : Headers) (q : Chain) : Chain × Option (List UInt8) :=
  match q.pbufHeader ipHlen with
  | none => (q, none)
  | some q => (q.writeFirst (headers.ip q.totLen).toList).etharpOutput headers

end Chain

abbrev HeaderMemory := Option (Vector UInt8 (lwipMemAlign (pbufIpHlen + pbufLinkHlen) + udpHlen))

def udpSendtoIf (headers : Headers) (alloc : HeaderMemory) (p : Pbuf) :
    Pbuf × Option (List UInt8) :=
  let q : Option Chain :=
    match Chain.pbufHeader udpHlen [p] with
    | some q => some q
    | none => alloc.map fun memory =>
        [⟨memory.toList, lwipMemAlign (pbufIpHlen + pbufLinkHlen), udpHlen⟩, p]
  match q with
  | none => (p, none)
  | some q =>
      let (q, frame) := (q.writeFirst (headers.udp q.totLen).toList).ipOutputIf headers
      (q.getLastD p, frame)

section Buffer
variable {p : Pbuf} {rest : Chain} {header : List UInt8}

def Pbuf.Fits (p : Pbuf) : Prop := p.payload + p.len ≤ p.memory.length

def Pbuf.push (p : Pbuf) (header : List UInt8) : Pbuf :=
  Pbuf.write { p with payload := p.payload - header.length, len := p.len + header.length } header

theorem Pbuf.Fits.length (fits : p.Fits) : p.bytes.length = p.len := by
  unfold Pbuf.bytes
  rw [List.length_take, List.length_drop]
  unfold Fits at fits
  omega

theorem Pbuf.Fits.push_fits (fits : p.Fits) (room : header.length ≤ p.payload) :
    (p.push header).Fits := by
  unfold Fits Pbuf.push write at *
  simp only [List.length_append, List.length_take, List.length_drop]
  omega

theorem Pbuf.Fits.push_bytes (fits : p.Fits) (room : header.length ≤ p.payload) :
    (p.push header).bytes = header ++ p.bytes := by
  have front : (p.memory.take (p.payload - header.length)).length = p.payload - header.length :=
    List.length_take_of_le (by unfold Fits at fits; omega)
  unfold Pbuf.push write bytes
  dsimp only
  rw [List.append_assoc, List.drop_left' front, Nat.sub_add_cancel room, Nat.add_comm p.len,
    List.take_length_add_append]

theorem Pbuf.Fits.write {data : List UInt8} (fits : p.Fits) (short : data.length ≤ p.len) :
    (p.write data).Fits ∧ (p.write data).bytes = data ++ p.bytes.drop data.length := by
  have front : (p.memory.take p.payload).length = p.payload :=
    List.length_take_of_le (by unfold Fits at fits; omega)
  constructor
  · unfold Fits Pbuf.write at *
    simp only [List.length_append, List.length_take, List.length_drop]
    omega
  · unfold bytes Pbuf.write
    dsimp only
    rw [List.append_assoc, List.drop_left' front, List.take_append, List.take_of_length_le short,
      List.drop_take, List.drop_drop]

theorem Pbuf.Fits.pbufTake {data : List UInt8} (fits : p.Fits) (short : data.length ≤ p.len) :
    (p.pbufTake data).Fits ∧ (p.pbufTake data).payload = p.payload ∧
      (p.pbufTake data).len = p.len ∧ data <+: (p.pbufTake data).bytes := by
  obtain ⟨written, bytes⟩ := fits.write short
  unfold Pbuf.pbufTake
  rw [if_neg (Nat.not_lt.mpr short)]
  refine ⟨written, rfl, rfl, ?_⟩
  rw [bytes]
  exact List.prefix_append _ _

theorem pbufHeader_push (header : List UInt8) (room : header.length ≤ p.payload) :
    (Chain.pbufHeader header.length (p :: rest)).map (Chain.writeFirst header) =
      some (p.push header :: rest) := by
  simp [Chain.pbufHeader, Nat.not_lt.mpr room, Chain.writeFirst, Pbuf.push]

variable (headers : Headers) (alloc : HeaderMemory)

theorem ipOutputIf_push (rest : Chain) (room : ipHlen + ethHlen ≤ p.payload) :
    ∃ ip : List UInt8, ip.length = ipHlen ∧
      Chain.ipOutputIf headers (p :: rest) =
        ((p.push ip).push headers.eth.toList :: rest,
          some (((p.push ip).push headers.eth.toList).bytes ++ Chain.bytes rest)) := by
  have wide : ipHlen ≤ p.payload := Nat.le_trans (Nat.le_add_right _ _) room
  let q : Pbuf := { p with payload := p.payload - ipHlen, len := p.len + ipHlen }
  let ip := (headers.ip (Chain.totLen (q :: rest))).toList
  have length : ip.length = ipHlen := Vector.length_toList
  have pushed : q.write ip = p.push ip := by
    unfold Pbuf.push
    rw [length]
  refine ⟨ip, length, ?_⟩
  have first : Chain.pbufHeader ipHlen (p :: rest) = some (q :: rest) :=
    if_neg (Nat.not_lt.mpr wide)
  have link : ethHlen ≤ (p.push ip).payload := by
    change _ ≤ p.payload - ip.length
    rw [length]
    exact Nat.le_sub_of_add_le (Nat.add_comm ipHlen ethHlen ▸ room)
  have second := @pbufHeader_push (p.push ip) rest headers.eth.toList
    (by rw [Vector.length_toList]; exact link)
  rw [Vector.length_toList] at second
  obtain ⟨q', found, second⟩ := Option.map_eq_some_iff.mp second
  unfold Chain.ipOutputIf
  rw [first]
  change Chain.etharpOutput headers (q.write ip :: rest) = _
  rw [pushed]
  unfold Chain.etharpOutput
  rw [found]
  dsimp only
  rw [second]
  rfl

theorem udpSendtoIf_push (room : udpHlen ≤ p.payload) :
    ∃ udp : List UInt8, udp.length = udpHlen ∧
      udpSendtoIf headers alloc p =
        ((Chain.ipOutputIf headers [p.push udp]).1.getLastD p,
          (Chain.ipOutputIf headers [p.push udp]).2) := by
  let q : Pbuf := { p with payload := p.payload - udpHlen, len := p.len + udpHlen }
  let udp := (headers.udp (Chain.totLen [q])).toList
  have length : udp.length = udpHlen := Vector.length_toList
  have pushed : q.write udp = p.push udp := by
    unfold Pbuf.push
    rw [length]
  have first : Chain.pbufHeader udpHlen [p] = some [q] := if_neg (Nat.not_lt.mpr room)
  refine ⟨udp, length, ?_⟩
  rw [← pushed]
  unfold udpSendtoIf
  rw [first]
  rfl

theorem udpSendtoIf_room (fits : p.Fits) (room : udpHlen + ipHlen + ethHlen ≤ p.payload) :
    ∃ header q, header.length = udpHlen + ipHlen + ethHlen ∧
      udpSendtoIf headers alloc p = (q, some (header ++ p.bytes)) ∧ q.Fits ∧
      q.payload = p.payload - (udpHlen + ipHlen + ethHlen) ∧
      q.len = p.len + (udpHlen + ipHlen + ethHlen) := by
  simp only [udpHlen, ipHlen, ethHlen] at room ⊢
  obtain ⟨udp, udp_, sent⟩ := udpSendtoIf_push headers alloc
    (show udpHlen ≤ p.payload by simp only [udpHlen]; omega)
  have payload : (p.push udp).payload = p.payload - 8 := congrArg (p.payload - ·) udp_
  obtain ⟨ip, ip_, output⟩ := ipOutputIf_push headers (p := p.push udp) []
    (by simp only [ipHlen, ethHlen, payload]; omega)
  have payload' : ((p.push udp).push ip).payload = p.payload - 28 := by
    change (p.push udp).payload - ip.length = _
    rw [payload, ip_]
    exact Nat.sub_sub _ _ _
  have udpRoom : udp.length ≤ p.payload := by rw [udp_]; simp only [udpHlen]; omega
  have ipRoom : ip.length ≤ (p.push udp).payload := by
    rw [ip_, payload]; simp only [ipHlen]; omega
  have fits₁ := fits.push_fits udpRoom
  have fits₂ := fits₁.push_fits ipRoom
  have link : headers.eth.toList.length ≤ ((p.push udp).push ip).payload := by
    rw [Vector.length_toList, payload']
    simp only [ethHlen]
    omega
  refine ⟨headers.eth.toList ++ (ip ++ udp), ((p.push udp).push ip).push headers.eth.toList,
    ?_, ?_, fits₂.push_fits link, ?_, ?_⟩
  · rw [List.length_append, List.length_append, udp_, ip_, Vector.length_toList]
    rfl
  · rw [sent, output, fits₂.push_bytes link, fits₁.push_bytes ipRoom, fits.push_bytes udpRoom]
    simp [Chain.bytes]
  · change ((p.push udp).push ip).payload - headers.eth.toList.length = _
    rw [payload', Vector.length_toList]
    exact Nat.sub_sub _ _ _
  · change p.len + udp.length + ip.length + headers.eth.toList.length = _
    rw [udp_, ip_, Vector.length_toList]
    exact Nat.add_assoc _ 28 14

theorem udpSendtoIf_tight (fits : p.Fits) (room : udpHlen ≤ p.payload)
    (tight : p.payload < udpHlen + ipHlen) :
    ∃ q, udpSendtoIf headers alloc p = (q, none) ∧ q.Fits ∧
      q.payload = p.payload - udpHlen ∧ q.len = p.len + udpHlen := by
  obtain ⟨udp, length, sent⟩ := udpSendtoIf_push headers alloc room
  have udpRoom : udp.length ≤ p.payload := by rw [length]; exact room
  have full : (p.push udp).payload < ipHlen := by
    change p.payload - udp.length < _
    rw [length]
    exact Nat.sub_lt_left_of_lt_add room tight
  have refused : Chain.pbufHeader ipHlen [p.push udp] = none := if_pos full
  have output : Chain.ipOutputIf headers [p.push udp] = ([p.push udp], none) := by
    unfold Chain.ipOutputIf
    rw [refused]
  refine ⟨p.push udp, ?_, fits.push_fits udpRoom, ?_, ?_⟩
  · rw [sent, output]
    rfl
  · exact congrArg (p.payload - ·) length
  · exact congrArg (p.len + ·) length

theorem udpSendtoIf_none (full : p.payload < udpHlen) :
    ∃ frame, udpSendtoIf headers alloc p = (p, frame) ∧
      ∀ sent, frame = some sent → ∃ header : List UInt8,
        header.length = udpHlen + ipHlen + ethHlen ∧ sent = header ++ p.bytes := by
  have refused : Chain.pbufHeader udpHlen [p] = none := if_pos full
  unfold udpSendtoIf
  rw [refused]
  cases alloc with
  | none => exact ⟨none, rfl, by simp⟩
  | some memory =>
    let q : Pbuf := ⟨memory.toList, lwipMemAlign (pbufIpHlen + pbufLinkHlen), udpHlen⟩
    let udp := (headers.udp (Chain.totLen [q, p])).toList
    have length : udp.length = udpHlen := Vector.length_toList
    have fits : q.Fits := by
      change _ ≤ memory.toList.length
      rw [Vector.length_toList]
    obtain ⟨written, bytes⟩ := fits.write (Nat.le_of_eq length)
    rw [List.drop_of_length_le (by rw [fits.length, length]), List.append_nil] at bytes
    have payload : (q.write udp).payload = 36 := rfl
    obtain ⟨ip, ip_, output⟩ := ipOutputIf_push headers (p := q.write udp) [p]
      (by rw [payload]; decide)
    have ipRoom : ip.length ≤ (q.write udp).payload := by
      rw [ip_, payload]
      decide
    have link : headers.eth.toList.length ≤ ((q.write udp).push ip).payload := by
      change _ ≤ (q.write udp).payload - ip.length
      rw [Vector.length_toList, ip_, payload]
      decide
    have fits₁ := written.push_fits ipRoom
    refine ⟨_, congrArg (fun r : Chain × Option (List UInt8) => (r.1.getLastD p, r.2)) output, ?_⟩
    intro sent found
    refine ⟨headers.eth.toList ++ (ip ++ udp), ?_, ?_⟩
    · rw [List.length_append, List.length_append, length, ip_, Vector.length_toList]
      rfl
    · rw [← Option.some.inj found, fits₁.push_bytes link, written.push_bytes ipRoom, bytes]
      simp [Chain.bytes]

end Buffer

end MotionBoard.Lwip
