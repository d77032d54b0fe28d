import Mathlib.Data.List.Forall2
import XferRust.Playlist.TsRemux

/-! # What is packed is put together again

The packets that `write_pes` makes are read back.  All of them are whole, filled up and numbered;
a PES comes back as it was unless its header does not go into its first packet.
-/
namespace XferRust.Playlist
open Guarded SortedMap

/-! ## What is written -/

/-- `n` continuity counters from `c` on. -/
def numbers : Nat → Nat → List Nat
  | _, 0 => []
  | c, n + 1 => c % 16 :: numbers (c + 1) n

theorem numbers_congr {c d : Nat} (h : c % 16 = d % 16) (n : Nat) : numbers c n = numbers d n := by
  induction n generalizing c d with
  | zero => rfl
  | succ n ih => rw [numbers, numbers, h, ih (show (c + 1) % 16 = (d + 1) % 16 by omega)]

theorem numbers_append (c m n : Nat) : numbers c (m + n) = numbers c m ++ numbers (c + m) n := by
  induction m generalizing c with
  | zero => rw [Nat.zero_add]; rfl
  | succ m ih =>
    rw [Nat.succ_add, numbers, numbers, ih, Nat.add_assoc, Nat.add_comm 1 m]
    rfl

/-- The packets on a PID. -/
def onPid (pid : Nat) (pkts : List (List UInt8)) : List (List UInt8) :=
  pkts.filter fun pkt => (fieldsOf pkt).pid = pid

/-- The packets that begin a PES. -/
def beginnings (pkts : List (List UInt8)) : List (List UInt8) :=
  pkts.filter fun pkt => (fieldsOf pkt).pusi

/-- The packets of a list of PES packets are as they have to be. -/
structure WellWritten (list : List Pes) (pkts : List (List UInt8)) : Prop where
  whole : ∀ pkt ∈ pkts,
    pkt.length = tsPacket ∧ pkt.head? = some tsSync ∧ payloadOffset pkt ≤ tsPacket
  /-- One packet begins each PES, and its adaptation field is the one that was kept, filled up. -/
  begun : List.Forall₂ (fun pes pkt => (fieldsOf pkt).pid = pes.pid ∧ Stuffed pes.firstAf (afOf pkt))
    list (beginnings pkts)
  carried : ∀ pkt ∈ pkts, (fieldsOf pkt).pusi = false → Stuffed [] (afOf pkt)
  /-- The counters of each PID are consecutive. -/
  numbered : ∀ pid, (onPid pid pkts).map counterOf = numbers 0 (onPid pid pkts).length

variable {pkts : List (List UInt8)} {cc cc' pid : Nat}
variable {pkt rest : List UInt8} {counters : Counters}

theorem CarriesOn.each (h : CarriesOn pid cc rest pkts cc') (hpkt : pkt ∈ pkts) :
    ∃ c part, Carries pid false [] c part pkt := by
  induction h with
  | done _ => exact (List.not_mem_nil hpkt).elim
  | more hfirst _ ih =>
    rcases List.mem_cons.mp hpkt with rfl | hpkt
    · exact ⟨_, _, hfirst⟩
    · exact ih hpkt

variable {pes : Pes}

theorem Written.each (h : Written pes cc pkts cc') (hpkt : pkt ∈ pkts) :
    ∃ first kept c part, Carries pes.pid first kept c part pkt ∧ (first = false → kept = []) := by
  cases h with
  | mk _ _ _ _ hfirst hrest =>
    rcases List.mem_cons.mp hpkt with rfl | hpkt
    · exact ⟨_, _, _, _, hfirst, fun h => nomatch h⟩
    · obtain ⟨c, part, hcarries⟩ := hrest.each hpkt
      exact ⟨_, _, c, part, hcarries, fun _ => rfl⟩

variable {list : List Pes}

theorem WrittenAll.each (h : WrittenAll counters list pkts) (hpkt : pkt ∈ pkts) :
    ∃ pid first kept c part, Carries pid first kept c part pkt ∧ (first = false → kept = []) := by
  induction h with
  | nil => exact (List.not_mem_nil hpkt).elim
  | cons hpes _ ih =>
    rcases List.mem_append.mp hpkt with hpkt | hpkt
    · exact ⟨_, hpes.each hpkt⟩
    · exact ih hpkt

/-! ## Beginnings and numbers -/

theorem CarriesOn.beginnings_eq (h : CarriesOn pid cc rest pkts cc') : beginnings pkts = [] := by
  refine List.filter_eq_nil_iff.mpr fun pkt hpkt hstart => ?_
  obtain ⟨_, _, hcarries⟩ := h.each hpkt
  rw [hcarries.pusi_eq] at hstart
  exact nomatch hstart

theorem WrittenAll.begun (h : WrittenAll counters list pkts) :
    List.Forall₂ (fun pes pkt => (fieldsOf pkt).pid = pes.pid ∧ Stuffed pes.firstAf (afOf pkt))
      list (beginnings pkts) := by
  induction h with
  | nil => exact .nil
  | cons hpes _ ih =>
    cases hpes with
    | mk _ _ _ _ hfirst hrest =>
      rw [beginnings, List.filter_append, List.filter_cons, if_pos hfirst.pusi_eq]
      have hnone := hrest.beginnings_eq
      rw [beginnings] at hnone
      rw [hnone]
      exact .cons ⟨hfirst.pid_eq, hfirst.stuffed⟩ ih

theorem CarriesOn.numbered (h : CarriesOn pid cc rest pkts cc') :
    pkts.map counterOf = numbers cc pkts.length ∧ cc' % 16 = (cc + pkts.length) % 16 := by
  induction h with
  | done cc => exact ⟨rfl, rfl⟩
  | more hpkt _ ih =>
    obtain ⟨hmap, hnext⟩ := ih
    rw [List.map_cons, List.length_cons, numbers, hpkt.counter_eq, hmap]
    exact ⟨congrArg _ (numbers_congr (Nat.mod_mod _ _) _), by omega⟩

theorem Written.numbered (h : Written pes cc pkts cc') :
    pkts.map counterOf = numbers cc pkts.length ∧ cc' % 16 = (cc + pkts.length) % 16 := by
  cases h with
  | mk _ _ _ _ hfirst hrest =>
    obtain ⟨hmap, hnext⟩ := hrest.numbered
    rw [List.map_cons, List.length_cons, numbers, hfirst.counter_eq, hmap]
    exact ⟨congrArg _ (numbers_congr (Nat.mod_mod _ _) _), by omega⟩

theorem Written.onPid_self (h : Written pes cc pkts cc') : onPid pes.pid pkts = pkts :=
  List.filter_eq_self.mpr fun pkt hpkt => by
    obtain ⟨_, _, _, _, hcarries, _⟩ := h.each hpkt
    exact decide_eq_true hcarries.pid_eq

theorem Written.onPid_other (h : Written pes cc pkts cc') (hpid : pid ≠ pes.pid) :
    onPid pid pkts = [] := by
  refine List.filter_eq_nil_iff.mpr fun pkt hpkt heq => ?_
  obtain ⟨_, _, _, _, hcarries, _⟩ := h.each hpkt
  exact hpid ((of_decide_eq_true heq).symm.trans hcarries.pid_eq)

/-- **The counters of a PID go on from PES to PES.** -/
theorem WrittenAll.numbered (h : WrittenAll counters list pkts) (pid : Nat) :
    (onPid pid pkts).map counterOf = numbers (counterFor pid counters) (onPid pid pkts).length := by
  induction h with
  | nil => rfl
  | @cons counters pes list pkts others cc hpes _ ih =>
    have hsplit : onPid pid (pkts ++ others) = onPid pid pkts ++ onPid pid others :=
      List.filter_append _ _
    rw [hsplit, List.map_append, List.length_append, numbers_append, ih]
    by_cases hpid : pid = pes.pid
    · subst hpid
      obtain ⟨hmap, hnext⟩ := hpes.numbered
      have hcounter : counterFor pes.pid ((pes.pid, cc) :: counters) = cc := by
        rw [counterFor, lookup_cons, if_pos rfl]
        rfl
      rw [hpes.onPid_self, hmap, hcounter, numbers_congr hnext]
    · have hcounter : counterFor pid ((pes.pid, cc) :: counters) = counterFor pid counters := by
        rw [counterFor, lookup_cons, if_neg (show ¬pes.pid = pid from fun h => hpid h.symm)]
        rfl
      rw [hpes.onPid_other hpid, hcounter]
      rfl

theorem WrittenAll.wellWritten (h : WrittenAll [] list pkts) : WellWritten list pkts where
  whole pkt hpkt := by
    obtain ⟨_, _, _, _, _, hcarries, _⟩ := h.each hpkt
    exact ⟨hcarries.whole, hcarries.sync, hcarries.offset_le⟩
  begun := h.begun
  carried pkt hpkt hpusi := by
    obtain ⟨_, _, _, _, _, hcarries, hkept⟩ := h.each hpkt
    exact hkept (hcarries.pusi_eq.symm.trans hpusi) ▸ hcarries.stuffed
  numbered := h.numbered

/-! ## What is read -/

section Read
variable {streams : Streams}

variable {cc : Nat}

theorem Carries.elementary {pid : Nat} {first : Bool} {kept part pkt : List UInt8}
    (h : Carries pid first kept cc part pkt) (hpid : (lookup pid streams).isSome) :
    Elementary streams pkt := by
  rw [Elementary, h.pid_eq]
  exact hpid

/-- A PES with more payload. -/
def extended (pes : Pes) (rest : List UInt8) : Pes := { pes with payload := pes.payload ++ rest }

variable {pkts : List (List UInt8)} {pes : Pes}

/-- The rest of a PES is added to it. -/
theorem CarriesOn.read {pid cc' : Nat} {rest : List UInt8} (h : CarriesOn pid cc rest pkts cc')
    (hpid : (lookup pid streams).isSome) (hkey : pes.pid = pid) (others : List (List UInt8))
    (out : List Pes) :
    reassembleLoop streams (pkts ++ others) (out ++ [pes]) (some out.length) =
      reassembleLoop streams others (out ++ [extended pes rest]) (some out.length) := by
  induction h generalizing pes with
  | done _ =>
    rw [extended, List.append_nil]
    rfl
  | @more cc cc' part rest pkt pkts hpkt _ ih =>
    have hcontinues : ¬(fieldsOf pkt).pusi = true := by
      rw [hpkt.pusi_eq]
      exact Bool.false_ne_true
    have hadd : carryOn pes pkt = extended pes part := by
      rw [carryOn, if_pos (hkey.trans hpkt.pid_eq.symm), hpkt.payload_eq]
      rfl
    rw [List.cons_append, reassembleLoop_carry hpkt.whole (hpkt.elementary hpid) hcontinues, hadd,
      ih (show (extended pes part).pid = pid from hkey)]
    simp only [extended, List.append_assoc]

/-- A PES whose header goes into its first packet is read as it was, but for the length in its
header. -/
theorem Written.read {cc' : Nat} (h : Written pes cc pkts cc')
    (hpid : (lookup pes.pid streams).isSome)
    (hroom : pes.header.length ≤ roomFor pes.firstAf (pes.header.length + pes.payload.length))
    (others : List (List UInt8)) (out : List Pes) (cur : Option Nat) :
    ∃ pes', pes'.pid = pes.pid ∧ pes'.payload = pes.payload ∧
      reassembleLoop streams (pkts ++ others) out cur =
        reassembleLoop streams others (out ++ [pes']) (some out.length) := by
  cases h with
  | @mk header part more pkt pkts _ hlength hstart hbody hpart hfirst hrest =>
    have hle : header.length ≤ part.length := by
      rw [hpart, hlength]
      exact hroom
    have hheader : part.take header.length = header := by
      have htake := congrArg (List.take header.length) hbody
      rw [List.take_left, List.take_append_of_le_length hle] at htake
      exact htake.symm
    have hpayload : part.drop header.length ++ more = pes.payload := by
      have hdrop := congrArg (List.drop header.length) hbody
      rw [List.drop_left, List.drop_append_of_le_length hle] at hdrop
      exact hdrop.symm
    have hstart' : pesPayloadStart (payloadOf pkt) = .ok (some header.length) := by
      rw [hfirst.payload_eq]
      refine pesPayloadStart_iff.mpr (hstart.of_agree hle fun i hi _ _ => ?_)
      rw [List.getD_eq_getElem?_getD, List.getD_eq_getElem?_getD, ← List.getElem?_take_of_lt hi,
        hheader]
    refine ⟨extended (pesAt pkt header.length) more, hfirst.pid_eq, ?_, ?_⟩
    · show (payloadOf pkt).drop header.length ++ more = pes.payload
      rw [hfirst.payload_eq, hpayload]
    · rw [List.cons_append, reassembleLoop_start hfirst.whole (hfirst.elementary hpid)
        hfirst.pusi_eq hstart', hrest.read hpid (show (pesAt pkt header.length).pid = pes.pid from
          hfirst.pid_eq)]

/-- **PES packets whose headers go into their first packets are read as they were.** -/
theorem WrittenAll.read {counters : Counters} {list : List Pes} (h : WrittenAll counters list pkts)
    (hpid : ∀ pes ∈ list, (lookup pes.pid streams).isSome)
    (hroom : ∀ pes ∈ list,
      pes.header.length ≤ roomFor pes.firstAf (pes.header.length + pes.payload.length))
    (out : List Pes) (cur : Option Nat) :
    ∃ out', reassembleLoop streams pkts out cur = .ok (out ++ out') ∧
      (out'.map fun pes => (pes.pid, pes.payload)) = list.map fun pes => (pes.pid, pes.payload) := by
  induction h generalizing out cur with
  | nil => exact ⟨[], congrArg Except.ok (List.append_nil out).symm, rfl⟩
  | @cons counters pes list pkts others cc hpes _ ih =>
    obtain ⟨hpid₁, hpid⟩ := List.forall_mem_cons.mp hpid
    obtain ⟨hroom₁, hroom⟩ := List.forall_mem_cons.mp hroom
    obtain ⟨pes', hkey, hpayload, hread⟩ := hpes.read hpid₁ hroom₁ others out cur
    obtain ⟨out', hrest, hlist⟩ := ih hpid hroom (out ++ [pes']) (some out.length)
    refine ⟨pes' :: out', ?_, ?_⟩
    · rw [hread, hrest, List.append_assoc]
      rfl
    · rw [List.map_cons, List.map_cons, hkey, hpayload, hlist]

/-- A header that does not go into the first packet is not found there. -/
theorem Written.headless {cc' : Nat} (h : Written pes cc pkts cc')
    (hroom : roomFor pes.firstAf (pes.header.length + pes.payload.length) < pes.header.length) :
    ∃ pkt ∈ pkts, (fieldsOf pkt).pid = pes.pid ∧ (fieldsOf pkt).pusi = true ∧ ¬WholeHeader pkt := by
  cases h with
  | @mk header part more pkt pkts _ hlength hstart hbody hpart hfirst hrest =>
    refine ⟨pkt, List.mem_cons_self, hfirst.pid_eq, hfirst.pusi_eq, ?_⟩
    rintro ⟨start, hfound⟩
    rw [hfirst.payload_eq] at hfound
    have hfound := pesPayloadStart_iff.mp hfound
    have hlt : part.length < header.length := by
      rw [hpart, hlength]
      exact hroom
    have hprefix : header.take part.length = part := by
      have htake := congrArg (List.take part.length) hbody
      rwa [List.take_left, List.take_append_of_le_length (Nat.le_of_lt hlt)] at htake
    have hstart' : StartsAt header start := by
      have hle := hfound.1
      refine hfound.of_agree (by omega) fun i hi _ _ => ?_
      rw [← hprefix, List.getD_eq_getElem?_getD, List.getD_eq_getElem?_getD,
        List.getElem?_take_of_lt (Nat.lt_of_lt_of_le hi hle)]
    have hsame := hstart.unique hstart'
    have hle := hfound.1
    omega

theorem WrittenAll.headless {counters : Counters} {list : List Pes}
    (h : WrittenAll counters list pkts) (hpes : pes ∈ list)
    (hroom : roomFor pes.firstAf (pes.header.length + pes.payload.length) < pes.header.length) :
    ∃ pkt ∈ pkts, (fieldsOf pkt).pid = pes.pid ∧ (fieldsOf pkt).pusi = true ∧ ¬WholeHeader pkt := by
  induction h with
  | nil => exact (List.not_mem_nil hpes).elim
  | cons hfirst _ ih =>
    rcases List.mem_cons.mp hpes with rfl | hpes
    · obtain ⟨pkt, hpkt, hrest⟩ := hfirst.headless hroom
      exact ⟨pkt, List.mem_append_left _ hpkt, hrest⟩
    · obtain ⟨pkt, hpkt, hrest⟩ := ih hpes
      exact ⟨pkt, List.mem_append_right _ hpkt, hrest⟩

end Read

/-- A header of 183 bytes and nothing behind it: one byte is missing in the packet, and two are
taken for it. -/
def Cramped (pes : Pes) : Prop := pes.firstAf = [] ∧ pes.header.length = 183 ∧ pes.payload = []

/-- **When the header goes into the first packet.** -/
theorem Reassembled.room_iff (h : Reassembled pes) :
    pes.header.length ≤ roomFor pes.firstAf (pes.header.length + pes.payload.length) ↔
      ¬Cramped pes := by
  have h6 := h.header_whole.six_le
  have h184 : tsPayload = 184 := rfl
  have hin := h.in_one
  by_cases hnil : pes.firstAf = []
  · rw [if_pos hnil] at hin
    have hcramped : Cramped pes ↔ pes.header.length = 183 ∧ pes.payload.length = 0 := by
      rw [Cramped, List.length_eq_zero_iff]
      exact and_iff_right hnil
    rw [roomFor, hnil, afTotal_nil, hcramped]
    split
    · omega
    · split <;> omega
  · rw [if_neg hnil] at hin
    rw [roomFor, afTotal_kept hnil (by omega)]
    exact ⟨fun _ hc => hnil hc.1, fun _ => by omega⟩

/-! ## Round trip -/

/-- Reading gives back each PES, on its PID, with its payload. -/
def GivesBack (streams : Streams) (list : List Pes) (written : List UInt8) : Prop :=
  ∃ out, reassemblePes written streams = .ok out ∧
    (out.map fun pes => (pes.pid, pes.payload)) = list.map fun pes => (pes.pid, pes.payload)

/-- **When PES packets are written and read back**: exactly when none of them is cramped.  What is
written is well formed in any case. -/
theorem round_trip_iff {list : List Pes} {streams : Streams}
    (hlist : ∀ pes ∈ list, Reassembled pes)
    (hstreams : ∀ pes ∈ list, (lookup pes.pid streams).isSome) :
    (∃ written, writeAll list [] [] = .ok written ∧ written.length % tsPacket = 0 ∧
      WellWritten list (Records.chunksExact tsPacket written) ∧
      GivesBack streams list written) ↔ ∀ pes ∈ list, ¬Cramped pes := by
  obtain ⟨pkts, hrun, hpkts⟩ := writeAll_ok hlist [] []
  rw [List.nil_append] at hrun
  have hwell := hpkts.wellWritten
  have hlen : ∀ pkt ∈ pkts, pkt.length = tsPacket := fun pkt hpkt => (hwell.whole pkt hpkt).1
  have hchunks : Records.chunksExact tsPacket pkts.flatten = pkts :=
    Records.chunksExact_flatten (by decide) hlen
  constructor
  · rintro ⟨written, hwritten, _, _, out, hread, _⟩ pes hpes
    obtain rfl := Except.ok.inj (hrun.symm.trans hwritten)
    rw [reassemblePes, hchunks] at hread
    refine (hlist pes hpes).room_iff.mp (Nat.not_lt.mp fun hroom => ?_)
    obtain ⟨pkt, hpkt, hpid, hpusi, hheadless⟩ := hpkts.headless hpes hroom
    refine hheadless (headersWhole_of_closed hlen hread pkt hpkt ?_ hpusi)
    rw [Elementary, hpid]
    exact hstreams pes hpes
  · intro hroomy
    refine ⟨pkts.flatten, hrun, ?_, hchunks.symm ▸ hwell, ?_⟩
    · rw [Records.length_flatten hlen]
      exact Nat.mul_mod_left _ _
    · obtain ⟨out, hread, hsame⟩ := hpkts.read hstreams
        (fun pes hpes => (hlist pes hpes).room_iff.mpr (hroomy pes hpes)) [] none
      rw [List.nil_append] at hread
      exact ⟨out, by rw [reassemblePes, hchunks]; exact hread, hsame⟩

/-- A PES that leaves one byte of a packet. -/
def snugPes : Pes where
  pid := 256
  header := [0, 0, 1, 0xE0, 0, 0, 0x80, 0, 0]
  payload := List.replicate 174 0xAA
  firstAf := []

theorem snugPes_round_trip :
    ∃ written, writeAll [snugPes] [] [] = .ok written ∧ written.length % tsPacket = 0 ∧
      WellWritten [snugPes] (Records.chunksExact tsPacket written) ∧
      GivesBack [(256, 0x1B)] [snugPes] written := by
  refine (round_trip_iff ?_ ?_).mpr ?_
  · intro pes hpes
    obtain rfl := List.mem_singleton.mp hpes
    exact ⟨by decide, pesPayloadStart_iff.mp rfl, by decide⟩
  · decide
  · intro pes hpes hc
    obtain rfl := List.mem_singleton.mp hpes
    exact absurd hc.2.1 (by decide)

/-- A packet with an adaptation field of one byte, its length, and a PES header for the rest. -/
def crampedPacket : List UInt8 :=
  [0x47, 0x41, 0x00, 0x30, 0, 0, 0, 1, 0xE0, 0, 0, 0x80, 0, 174] ++ List.replicate 174 0xFF

/-- The packet is read as one PES; what is written for it has the header over two packets, and is
not read back. -/
theorem crampedPacket_lost :
    (reassemblePes crampedPacket [(256, 0x1B)]).toOption = some [pesAt crampedPacket 183] ∧
    ∃ written, writeAll [pesAt crampedPacket 183] [] [] = .ok written ∧
      ¬GivesBack [(256, 0x1B)] [pesAt crampedPacket 183] written := by
  refine ⟨by decide +kernel, ?_⟩
  have hwritten : (writeAll [pesAt crampedPacket 183] [] []).toOption.isSome := by decide +kernel
  have hlost : ∀ written ∈ (writeAll [pesAt crampedPacket 183] [] []).toOption,
      (reassemblePes written [(256, 0x1B)]).toOption = none := by decide +kernel
  match hrun : writeAll [pesAt crampedPacket 183] [] [] with
  | .ok written =>
    refine ⟨written, rfl, ?_⟩
    rintro ⟨out, hread, _⟩
    have hnone := hlost written (hrun ▸ rfl)
    rw [hread] at hnone
    exact nomatch hnone
  | .error _ =>
    rw [hrun] at hwritten
    exact nomatch hwritten

end XferRust.Playlist
