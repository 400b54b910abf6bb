import MotionBoard.Network.Pbuf

namespace MotionBoard
open Lwip

abbrev hmPrintBufSize : Nat := 204

structure HmDebug where
  bdebugOn : Bool
  pbuf : Option Pbuf
  upcb : Bool

namespace HmDebug

def hmCmdNetInitDebug (sDebug : HmDebug) (bdebugOn : Bool)
    (pool : Option (Vector UInt8 pbufPoolBufsize)) (udpNew : Bool) : HmDebug :=
  if bdebugOn then
    if sDebug.upcb then { sDebug with bdebugOn }
    else
      { bdebugOn
        pbuf := pool.map fun memory => Pbuf.pbufAlloc memory (hmPrintBufSize + 20)
        upcb := udpNew }
  else { bdebugOn, pbuf := none, upcb := false }

def hmNetDebugSend (sDebug : HmDebug) (headers : Headers) (alloc : HeaderMemory)
    (data : List UInt8) : HmDebug × Option (List UInt8) :=
  match sDebug.bdebugOn, sDebug.pbuf, sDebug.upcb with
  | true, some pbuf, true =>
      let (pbuf, frame) := udpSendtoIf headers alloc (pbuf.pbufTake data)
      ({ sDebug with pbuf := some pbuf }, frame)
  | _, _, _ => (sDebug, none)

def hmNetAddPrintPending (sDebug : HmDebug) (headers : Headers) (alloc : HeaderMemory)
    (ppntBuf : Vector UInt8 hmPrintBufSize) : HmDebug × Option (List UInt8) :=
  sDebug.hmNetDebugSend headers alloc ppntBuf.toList

structure Print where
  headers : Headers
  alloc : HeaderMemory
  ppntBuf : Vector UInt8 hmPrintBufSize

def print (sDebug : HmDebug) (p : Print) : HmDebug × Option (List UInt8) :=
  sDebug.hmNetAddPrintPending p.headers p.alloc p.ppntBuf

def printed (sDebug : HmDebug) (prints : Nat → Print) : Nat → HmDebug
  | 0 => sDebug
  | k + 1 => ((sDebug.printed prints k).print (prints k)).1

def Sends (frame : Option (List UInt8)) (ppntBuf : Vector UInt8 hmPrintBufSize) : Prop :=
  ∃ sent datagram header : List UInt8, frame = some sent ∧ sent = header ++ datagram ∧
    header.length = udpHlen + ipHlen + ethHlen ∧ datagram.length = hmPrintBufSize + 20 ∧
    ppntBuf.toList <+: datagram

def StartsAt (sDebug : HmDebug) (payload : Nat) : Prop :=
  ∃ p : Pbuf, sDebug = ⟨true, some p, true⟩ ∧ p.Fits ∧ p.payload = payload ∧
    p.len + payload = 280

section Print
variable {sDebug : HmDebug} {payload : Nat} (p : Print)

theorem startsAt_init (off : sDebug.upcb = false) (memory : Vector UInt8 pbufPoolBufsize) :
    (sDebug.hmCmdNetInitDebug true (some memory) true).StartsAt 56 := by
  unfold hmCmdNetInitDebug
  rw [if_pos rfl, off]
  refine ⟨Pbuf.pbufAlloc memory (hmPrintBufSize + 20), rfl, ?_, rfl, rfl⟩
  change 280 ≤ memory.toList.length
  rw [Vector.length_toList]
  decide

theorem StartsAt.print (starts : sDebug.StartsAt payload) (room : payload ≤ 56) :
    ∃ q : Pbuf, q.Fits ∧ q.payload = payload ∧ q.len + payload = 280 ∧
      p.ppntBuf.toList <+: q.bytes ∧
      sDebug.print p = (⟨true, some (udpSendtoIf p.headers p.alloc q).1, true⟩,
        (udpSendtoIf p.headers p.alloc q).2) := by
  obtain ⟨buf, rfl, fits, start, size⟩ := starts
  have short : p.ppntBuf.toList.length ≤ buf.len := by
    rw [Vector.length_toList]
    simp only [hmPrintBufSize]
    omega
  obtain ⟨fits', start', size', front⟩ := fits.pbufTake short
  exact ⟨buf.pbufTake p.ppntBuf.toList, fits', start'.trans start, size' ▸ size, front, rfl⟩

theorem StartsAt.print_room (starts : sDebug.StartsAt 56) :
    (sDebug.print p).1.StartsAt 14 ∧ Sends (sDebug.print p).2 p.ppntBuf := by
  obtain ⟨q, fits, start, size, front, prints⟩ := starts.print p (Nat.le_refl _)
  obtain ⟨header, q', length, sent, fits', start', size'⟩ :=
    udpSendtoIf_room p.headers p.alloc fits (by rw [start]; decide)
  rw [prints, sent]
  constructor
  · refine ⟨q', rfl, fits', start'.trans (start ▸ rfl), ?_⟩
    rw [size']
    omega
  · refine ⟨_, q.bytes, header, rfl, rfl, length, ?_, front⟩
    rw [fits.length]
    exact Nat.add_right_cancel size

theorem StartsAt.print_tight (starts : sDebug.StartsAt 14) :
    (sDebug.print p).1.StartsAt 6 ∧ (sDebug.print p).2 = none := by
  obtain ⟨q, fits, start, size, -, prints⟩ := starts.print p (by decide)
  obtain ⟨q', sent, fits', start', size'⟩ :=
    udpSendtoIf_tight p.headers p.alloc fits (by rw [start]; decide) (by rw [start]; decide)
  rw [prints, sent]
  refine ⟨⟨q', rfl, fits', start'.trans (start ▸ rfl), ?_⟩, rfl⟩
  rw [size']
  omega

theorem StartsAt.print_none (starts : sDebug.StartsAt 6) :
    (sDebug.print p).1.StartsAt 6 ∧ ¬Sends (sDebug.print p).2 p.ppntBuf := by
  obtain ⟨q, fits, start, size, -, prints⟩ := starts.print p (by decide)
  obtain ⟨frame, sent, whole⟩ :=
    udpSendtoIf_none p.headers p.alloc (p := q) (by rw [start]; decide)
  rw [prints, sent]
  refine ⟨⟨q, rfl, fits, start, size⟩, ?_⟩
  rintro ⟨bytes, datagram, header, found, split, length, exact, -⟩
  obtain ⟨header', length', split'⟩ := whole bytes found
  have longer := congrArg List.length (split.symm.trans split')
  rw [List.length_append, List.length_append, length, length', exact, fits.length] at longer
  simp only [hmPrintBufSize] at longer
  omega

end Print

/-- The first print takes the headroom for all headers, the second what is left of it. -/
theorem startsAt_printed {sDebug : HmDebug} (starts : sDebug.StartsAt 56) (prints : Nat → Print)
    (k : Nat) : (sDebug.printed prints k).StartsAt (if k = 0 then 56 else if k = 1 then 14 else 6) := by
  induction k with
  | zero => exact starts
  | succ k before =>
    change ((sDebug.printed prints k).print (prints k)).1.StartsAt _
    rcases k with _ | _ | k
    · exact (before.print_room _).1
    · exact (before.print_tight _).1
    · exact (before.print_none _).1

/-- After debugging is switched on only the first print is sent as a datagram of its own size. -/
theorem print_sent_iff {sDebug : HmDebug} (off : sDebug.upcb = false)
    (memory : Vector UInt8 pbufPoolBufsize) (prints : Nat → Print) (k : Nat) :
    let on := sDebug.hmCmdNetInitDebug true (some memory) true
    Sends ((on.printed prints k).print (prints k)).2 (prints k).ppntBuf ↔ k = 0 := by
  intro on
  have before := startsAt_printed (startsAt_init off memory) prints k
  rcases k with _ | _ | k
  · exact iff_of_true (before.print_room _).2 rfl
  · have nothing := (before.print_tight (prints 1)).2
    refine iff_of_false ?_ Nat.one_ne_zero
    rintro ⟨_, _, _, found, _⟩
    exact Option.some_ne_none _ (found.symm.trans nothing)
  · exact iff_of_false (before.print_none _).2 (Nat.succ_ne_zero _)

def quiet : Print where
  headers := ⟨fun _ => Vector.replicate _ 0, fun _ => Vector.replicate _ 0, Vector.replicate _ 0⟩
  alloc := none
  ppntBuf := Vector.replicate _ 0

def fresh : HmDebug :=
  (⟨false, none, false⟩ : HmDebug).hmCmdNetInitDebug true (some (Vector.replicate _ 0)) true

theorem first_print_sent : Sends (fresh.print quiet).2 quiet.ppntBuf :=
  (print_sent_iff rfl _ (fun _ => quiet) 0).mpr rfl

theorem second_print_lost : ¬Sends ((fresh.print quiet).1.print quiet).2 quiet.ppntBuf := by
  have second : (fresh.print quiet).1.StartsAt 14 := ((startsAt_init rfl _).print_room quiet).1
  have nothing := (second.print_tight quiet).2
  rintro ⟨_, _, _, found, _⟩
  exact Option.some_ne_none _ (found.symm.trans nothing)

end HmDebug

end MotionBoard
