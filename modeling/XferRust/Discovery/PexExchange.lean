import Mathlib.Data.List.Dedup
import Mathlib.Data.List.Induction
import XferRust.Discovery.Pex

/-! # What peer exchange tells

The sender tells what has changed since its last message, and the receiver puts the messages
together.  It comes to hold the IPv4 addresses of the last snapshot, each with the flags under
which it was announced: flags that change while a peer stays connected are not told again.
-/
namespace XferRust.Discovery

open Dht (SocketAddr)
open StepRun

/-- `PeerId`. -/
abbrev PeerId := Octets 20

/-- The slice that `generate_message` is given; it is not longer than memory. -/
structure Snapshot where
  peers : List (SocketAddr × PeerId × UInt8)
  fits : peers.length * 6 < 18446744073709551616

namespace Snapshot

def addrs (s : Snapshot) : List SocketAddr := s.peers.map fun p => p.1

/-- The flags under which an address is announced; of several entries the last one counts. -/
def flagsOf (s : Snapshot) (a : SocketAddr) : Option UInt8 :=
  (s.peers.reverse.find? fun p => p.1 = a).map fun p => p.2.2

theorem mem_of_flagsOf {s : Snapshot} {a : SocketAddr} {f : UInt8} (h : s.flagsOf a = some f) :
    a ∈ s.addrs := by
  obtain ⟨p, hp, -⟩ := Option.map_eq_some_iff.mp h
  have heq := List.find?_some hp
  exact List.mem_map.mpr
    ⟨p, List.mem_reverse.mp (List.mem_of_find?_eq_some hp), of_decide_eq_true heq⟩

theorem exists_flagsOf {s : Snapshot} {a : SocketAddr} (h : a ∈ s.addrs) :
    ∃ f, s.flagsOf a = some f := by
  obtain ⟨p, hp, rfl⟩ := List.mem_map.mp h
  have hsome : (s.peers.reverse.find? fun q => q.1 = p.1).isSome = true :=
    List.find?_isSome.mpr ⟨p, List.mem_reverse.mpr hp, decide_eq_true rfl⟩
  obtain ⟨q, hq⟩ := Option.isSome_iff_exists.mp hsome
  exact ⟨q.2.2, by rw [flagsOf, hq]; rfl⟩

end Snapshot

/-! ## The sender -/

/-- `PexExchange`. -/
structure PexExchange where
  /-- The addresses of the last message, as a set. -/
  sent : List SocketAddr

namespace PexExchange

/-- `PexExchange::new`. -/
def new : PexExchange := { sent := [] }

/-- `generate_message`; `walk` is the order in which the set `sent` is gone through. -/
def generateMessage (pex : PexExchange) (walk : List SocketAddr) (current : Snapshot) :
    PexMessage × PexExchange :=
  let currentSet := current.addrs.dedup
  let added := (current.peers.filter fun p => p.1 ∉ pex.sent).map fun p =>
    { addr := p.1, flags := p.2.2 }
  let dropped := walk.filter fun addr => addr ∉ currentSet
  ({ added, dropped }, { sent := currentSet })

end PexExchange

/-! ## The receiver -/

/-- The addresses that a receiver holds, with their flags. -/
abbrev Known := SocketAddr → Option UInt8

namespace Known

def add (known : Known) (p : PexPeer) : Known :=
  fun a => if a = p.addr then some p.flags else known a

def drop (known : Known) (addr : SocketAddr) : Known :=
  fun a => if a = addr then none else known a

/-- A message is applied: its peers are added, its addresses removed. -/
def apply (known : Known) (msg : PexMessage) : Known :=
  msg.dropped.foldl drop (msg.added.foldl add known)

/-- What comes from the wire is applied, if it can be read. -/
def receive (known : Known) (wire : List UInt8) : Known :=
  match PexMessage.decode wire with
  | .ok msg => known.apply msg
  | .error _ => known

theorem foldl_add (known : Known) (added : List PexPeer) (a : SocketAddr) :
    added.foldl add known a =
      ((added.reverse.find? fun p => p.addr = a).map PexPeer.flags).or (known a) := by
  induction added generalizing known with
  | nil => rfl
  | cons p added ih =>
    rw [List.foldl_cons, ih, List.reverse_cons, List.find?_append, Option.map_or, Option.or_assoc]
    refine congrArg _ ?_
    by_cases h : p.addr = a
    · rw [add, if_pos h.symm, List.find?_singleton, if_pos (decide_eq_true h)]
      rfl
    · rw [add, if_neg (Ne.symm h), List.find?_singleton, if_neg (by simpa using h)]
      rfl

theorem foldl_drop (known : Known) (dropped : List SocketAddr) (a : SocketAddr) :
    dropped.foldl drop known a = if a ∈ dropped then none else known a := by
  induction dropped generalizing known with
  | nil => rfl
  | cons b dropped ih =>
    rw [List.foldl_cons, ih]
    by_cases hmem : a ∈ dropped
    · rw [if_pos hmem, if_pos (List.mem_cons_of_mem _ hmem)]
    · rw [if_neg hmem, drop]
      by_cases heq : a = b
      · rw [if_pos heq, if_pos (heq ▸ List.mem_cons_self)]
      · rw [if_neg heq, if_neg fun h => (List.mem_cons.mp h).elim heq hmem]

end Known

/-! ## Runs -/

/-- The two ends of an exchange, with what was given to the sender and what it sent. -/
structure PexLink where
  sender : PexExchange
  known : Known
  history : List Snapshot
  messages : List PexMessage

namespace PexLink

def start : PexLink :=
  { sender := .new, known := fun _ => none, history := [], messages := [] }

/-- A snapshot, and the order in which the set of the addresses sent is gone through. -/
structure Told where
  current : Snapshot
  walk : List SocketAddr

/-- A message is generated, encoded, decoded and applied. -/
def step (s : PexLink) (e : Told) : Option PexLink :=
  if e.walk.Perm s.sender.sent then
    let (msg, sender) := s.sender.generateMessage e.walk e.current
    some
      { sender, known := s.known.receive msg.encode, history := s.history ++ [e.current],
        messages := s.messages ++ [msg] }
  else none

/-- The addresses of the last snapshot. -/
def lastAddrs (history : List Snapshot) : List SocketAddr :=
  (history.getLast?.map Snapshot.addrs).getD []

/-- The address was last added with these flags: a snapshot lists it with them, the one before
does not list it, and every one since does. -/
def LastAdded (history : List Snapshot) (a : SocketAddr) (f : UInt8) : Prop :=
  ∃ before s after, history = before ++ s :: after ∧ a ∉ lastAddrs before ∧
    s.flagsOf a = some f ∧ ∀ t ∈ after, a ∈ t.addrs

theorem lastAddrs_snoc (history : List Snapshot) (s : Snapshot) :
    lastAddrs (history ++ [s]) = s.addrs := by
  rw [lastAddrs, List.getLast?_concat]
  rfl

variable {a : SocketAddr}

theorem mem_lastAddrs_append {before after : List Snapshot} (h : after ≠ [])
    (hall : ∀ t ∈ after, a ∈ t.addrs) : a ∈ lastAddrs (before ++ after) := by
  rw [← List.dropLast_concat_getLast h, ← List.append_assoc, lastAddrs_snoc]
  exact hall _ (List.getLast_mem h)

variable {history : List Snapshot}

theorem LastAdded.mem {f : UInt8} (h : LastAdded history a f) : a ∈ lastAddrs history := by
  obtain ⟨before, s, after, rfl, -, hf, hafter⟩ := h
  exact mem_lastAddrs_append (List.cons_ne_nil _ _)
    (List.forall_mem_cons.mpr ⟨Snapshot.mem_of_flagsOf hf, hafter⟩)

theorem LastAdded.snoc {f : UInt8} {t : Snapshot} (h : LastAdded history a f) (ht : a ∈ t.addrs) :
    LastAdded (history ++ [t]) a f := by
  obtain ⟨before, s, after, rfl, hbefore, hf, hafter⟩ := h
  refine ⟨before, s, after ++ [t], by rw [List.append_assoc]; rfl, hbefore, hf, fun u hu => ?_⟩
  rcases List.mem_append.mp hu with hu | hu
  · exact hafter u hu
  · exact List.mem_singleton.mp hu ▸ ht

/-- An address was last added once. -/
theorem LastAdded.unique {f g : UInt8} (hf : LastAdded history a f) (hg : LastAdded history a g) :
    f = g := by
  have haux {before before' after after' : List Snapshot} {s s' : Snapshot} {f g : UInt8}
      (hbefore : a ∉ lastAddrs before') (hf : s.flagsOf a = some f)
      (hg : s'.flagsOf a = some g) (hafter : ∀ t ∈ after, a ∈ t.addrs)
      {c : List Snapshot} (hfront : before' = before ++ c)
      (hback : s :: after = c ++ s' :: after') : f = g := by
    cases c with
    | nil =>
      obtain ⟨rfl, -⟩ := List.cons.inj hback
      exact Option.some.inj (hf.symm.trans hg)
    | cons u c =>
      -- The later of the two follows a snapshot that lists the address.
      obtain ⟨rfl, hrest⟩ := List.cons.inj hback
      refine absurd ?_ hbefore
      rw [hfront]
      refine mem_lastAddrs_append (List.cons_ne_nil _ _) (List.forall_mem_cons.mpr
        ⟨Snapshot.mem_of_flagsOf hf, fun t ht => hafter t ?_⟩)
      exact hrest ▸ List.mem_append_left _ ht
  obtain ⟨before, s, after, rfl, hbefore, hsf, hafter⟩ := hf
  obtain ⟨before', s', after', heq, hbefore', hsg, hafter'⟩ := hg
  rcases List.append_eq_append_iff.mp heq with ⟨c, hfront, hback⟩ | ⟨c, hfront, hback⟩
  · exact haux hbefore' hsf hsg hafter hfront hback
  · exact (haux hbefore hsg hsf hafter' hfront hback).symm

/-- **What the exchange comes to.** -/
structure Converged (s : PexLink) : Prop where
  /-- The receiver holds the IPv4 addresses of the last snapshot. -/
  addrs : ∀ a, (s.known a).isSome = true ↔ a.isIpv4 = true ∧ a ∈ lastAddrs s.history
  /-- Each with the flags that it had when it was last added. -/
  flags : ∀ a f, s.known a = some f ↔ a.isIpv4 = true ∧ LastAdded s.history a f

/-- The records of the added peers and their flags, in step: a record for each of the flags, and
the peers that are read are those that were added, each with its own. -/
structure InStep (msg : PexMessage) : Prop where
  length : ∃ added flags,
    SortedMap.lookup addedKey msg.fields = some (.bytes added) ∧
    SortedMap.lookup addedFlagsKey msg.fields = some (.bytes flags) ∧
    added.length = flags.length * 6
  decode : PexMessage.decode msg.encode = .ok msg.ipv4

theorem inStep_of_fits {msg : PexMessage} (h : msg.Fits) : InStep msg :=
  ⟨⟨_, _, rfl, rfl, PexMessage.length_addedFields msg.added⟩, PexMessage.decode_wire h⟩

/-! ### One message -/

variable {pex : PexExchange} {walk : List SocketAddr} {t : Snapshot}

theorem fits_generateMessage (hsize : pex.sent.length * 6 < 18446744073709551616)
    (hwalk : walk.Perm pex.sent) : (pex.generateMessage walk t).1.Fits where
  added := by
    have hless := List.length_filter_le (fun p => decide (p.1 ∉ pex.sent)) t.peers
    have hfits := t.fits
    rw [PexExchange.generateMessage, List.length_map]
    omega
  dropped := by
    have hless := List.length_filter_le (fun a => decide (a ∉ t.addrs.dedup)) walk
    have hlen := hwalk.length_eq
    show (walk.filter fun a => a ∉ t.addrs.dedup).length * 6 < 18446744073709551616
    omega

/-- The addresses that a message takes away. -/
theorem mem_dropped (hwalk : walk.Perm pex.sent) (a : SocketAddr) :
    a ∈ (pex.generateMessage walk t).1.ipv4.dropped ↔
      a.isIpv4 = true ∧ a ∈ pex.sent ∧ a ∉ t.addrs := by
  rw [PexMessage.ipv4, PexExchange.generateMessage, List.mem_filter, List.mem_filter,
    decide_eq_true_eq, List.mem_dedup, hwalk.mem_iff]
  exact and_comm

/-- The flags that a message brings. -/
theorem flags_added (a : SocketAddr) :
    ((pex.generateMessage walk t).1.ipv4.added.reverse.find? fun p => p.addr = a).map
        PexPeer.flags =
      if a.isIpv4 = true ∧ a ∉ pex.sent then t.flagsOf a else none := by
  rw [PexMessage.ipv4, PexExchange.generateMessage, List.filter_map, ← List.map_reverse,
    ← List.filter_reverse, ← List.filter_reverse, List.find?_map, List.find?_filter,
    List.find?_filter, Option.map_map]
  split
  · rename_i h
    refine congrArg (Option.map _) (congrArg (List.find? · t.peers.reverse) (funext fun p => ?_))
    by_cases heq : p.1 = a
    · subst heq
      simp [h]
    · simp [heq]
  · rename_i h
    rw [List.find?_eq_none.mpr]
    · rfl
    · rintro p - hp
      simp only [Function.comp_apply, decide_eq_true_eq] at hp
      exact h ⟨hp.2.2 ▸ hp.2.1, hp.2.2 ▸ hp.1⟩

/-- **What a receiver holds after a message.** -/
theorem receive_generate (known : Known) (hsize : pex.sent.length * 6 < 18446744073709551616)
    (hwalk : walk.Perm pex.sent) (a : SocketAddr) :
    known.receive (pex.generateMessage walk t).1.encode a =
      if a.isIpv4 = true ∧ a ∈ pex.sent ∧ a ∉ t.addrs then none
      else (if a.isIpv4 = true ∧ a ∉ pex.sent then t.flagsOf a else none).or (known a) := by
  rw [Known.receive, PexMessage.decode_wire (fits_generateMessage hsize hwalk)]
  show known.apply _ a = _
  rw [Known.apply, Known.foldl_drop, Known.foldl_add, flags_added]
  simp only [mem_dropped hwalk]

/-! ### All messages -/

theorem exists_lastAdded (h : a ∈ lastAddrs history) : ∃ f, LastAdded history a f := by
  induction history using List.reverseRecOn with
  | nil => exact (List.not_mem_nil h).elim
  | append_singleton history t ih =>
    rw [lastAddrs_snoc] at h
    by_cases hbefore : a ∈ lastAddrs history
    · obtain ⟨f, hf⟩ := ih hbefore
      exact ⟨f, hf.snoc h⟩
    · obtain ⟨f, hf⟩ := Snapshot.exists_flagsOf h
      exact ⟨f, history, t, [], rfl, hbefore, hf, fun u hu => (List.not_mem_nil hu).elim⟩

/-- The flags that are held say which addresses are. -/
theorem converged_of_flags {s : PexLink}
    (h : ∀ a f, s.known a = some f ↔ a.isIpv4 = true ∧ LastAdded s.history a f) :
    s.Converged := by
  refine ⟨fun a => ?_, h⟩
  rw [Option.isSome_iff_exists]
  constructor
  · rintro ⟨f, hf⟩
    exact ⟨((h a f).mp hf).1, ((h a f).mp hf).2.mem⟩
  · rintro ⟨hfamily, hmem⟩
    obtain ⟨f, hf⟩ := exists_lastAdded hmem
    exact ⟨f, (h a f).mpr ⟨hfamily, hf⟩⟩

/-- What every message keeps. -/
structure Sound (s : PexLink) : Prop where
  sent : ∀ a, a ∈ s.sender.sent ↔ a ∈ lastAddrs s.history
  size : s.sender.sent.length * 6 < 18446744073709551616
  flags : ∀ a f, s.known a = some f ↔ a.isIpv4 = true ∧ LastAdded s.history a f
  messages : ∀ msg ∈ s.messages, InStep msg

theorem sound_start : start.Sound where
  sent _ := Iff.rfl
  size := by decide
  flags a f := iff_of_false (by simp [start]) fun h => List.not_mem_nil h.2.mem
  messages _ h := (List.not_mem_nil h).elim

/-- The flags that are held after one more message. -/
theorem Sound.flags_receive {s : PexLink} (h : s.Sound) (hwalk : walk.Perm s.sender.sent)
    (a : SocketAddr) (f : UInt8) :
    s.known.receive (s.sender.generateMessage walk t).1.encode a = some f ↔
      a.isIpv4 = true ∧ LastAdded (s.history ++ [t]) a f := by
  rw [receive_generate s.known h.size hwalk]
  by_cases hfamily : a.isIpv4 = true
  case neg =>
    rw [if_neg fun hd => hfamily hd.1, if_neg fun hd => hfamily hd.1, Option.none_or, h.flags]
    exact iff_of_false (fun hd => hfamily hd.1) fun hd => hfamily hd.1
  by_cases hnow : a ∈ t.addrs
  case neg =>
    refine iff_of_false (fun hf => ?_) fun hd => hnow (lastAddrs_snoc s.history t ▸ hd.2.mem)
    by_cases hsent : a ∈ s.sender.sent
    · rw [if_pos ⟨hfamily, hsent, hnow⟩] at hf
      cases hf
    · rw [if_neg fun hd => hsent hd.2.1, if_pos ⟨hfamily, hsent⟩] at hf
      rcases Option.or_eq_some_iff.mp hf with hf | ⟨-, hf⟩
      · exact hnow (Snapshot.mem_of_flagsOf hf)
      · exact hsent ((h.sent a).mpr ((h.flags a f).mp hf).2.mem)
  rw [if_neg fun hd => hd.2.2 hnow]
  by_cases hsent : a ∈ s.sender.sent
  · -- The address is not told again, and keeps its flags.
    rw [if_neg fun hd => hd.2 hsent, Option.none_or, h.flags]
    refine and_congr_right fun _ => ⟨fun hf => hf.snoc hnow, fun hf => ?_⟩
    obtain ⟨g, hg⟩ := exists_lastAdded ((h.sent a).mp hsent)
    exact hf.unique (hg.snoc hnow) ▸ hg
  · obtain ⟨g, hg⟩ := Snapshot.exists_flagsOf hnow
    have hnew : LastAdded (s.history ++ [t]) a g :=
      ⟨s.history, t, [], rfl, fun hd => hsent ((h.sent a).mpr hd), hg,
        fun u hu => (List.not_mem_nil hu).elim⟩
    rw [if_pos ⟨hfamily, hsent⟩, hg, Option.some_or]
    constructor
    · exact fun hf => ⟨hfamily, Option.some.inj hf ▸ hnew⟩
    · exact fun hf => congrArg some (hnew.unique hf.2)

theorem Sound.step {s s' : PexLink} {e : Told} (h : s.Sound) (hs : s.step e = some s') :
    s'.Sound := by
  obtain ⟨t, walk⟩ := e
  rw [PexLink.step] at hs
  split at hs
  · rename_i hwalk
    obtain rfl := Option.some.inj hs
    refine ⟨fun a => ?_, ?_, h.flags_receive hwalk, fun msg hmsg => ?_⟩
    · rw [lastAddrs_snoc]
      exact List.mem_dedup
    · have hless := (List.dedup_sublist t.addrs).length_le
      have hlen : t.addrs.length = t.peers.length := List.length_map ..
      have hfits := t.fits
      show t.addrs.dedup.length * 6 < 18446744073709551616
      omega
    · rcases List.mem_append.mp hmsg with hmsg | hmsg
      · exact h.messages msg hmsg
      · exact List.mem_singleton.mp hmsg ▸ inStep_of_fits (fits_generateMessage h.size hwalk)
  · cases hs

/-- **Peer exchange converges**: after each message of every run the receiver holds the IPv4
addresses of the last snapshot, with the flags of their last announcement; and in each message the
addresses and the flags are in step. -/
theorem converged_of_run (es : List Told) (s : PexLink) (hrun : run step start es = some s) :
    s.Converged ∧ ∀ msg ∈ s.messages, InStep msg := by
  have hsound : s.Sound :=
    run_invariant (fun _ _ _ h (_ : True) hs => h.step hs) sound_start
      (along_of_forall fun _ _ => trivial) hrun
  exact ⟨converged_of_flags hsound.flags, hsound.messages⟩

/-! ### A run -/

def peer (host : UInt8) : SocketAddr := .v4 ⟨[10, 0, 0, host], rfl⟩ 6881

def peer6 : SocketAddr := .v6 ⟨List.replicate 16 1, rfl⟩ 6881 0 0

def anyId : PeerId := ⟨List.replicate 20 5, rfl⟩

/-- Two peers and one of IPv6; then one of them is gone, and the other has changed its flags. -/
def twoSnapshots : List Told :=
  [{ current := ⟨[(peer 1, anyId, 4), (peer6, anyId, 1), (peer 2, anyId, 2)], by decide⟩
     walk := [] },
   { current := ⟨[(peer6, anyId, 1), (peer 2, anyId, 6), (peer 3, anyId, 0)], by decide⟩
     walk := [peer 2, peer 1, peer6] }]

theorem twoSnapshots_converged :
    ∃ s, run step start twoSnapshots = some s ∧
      ([peer 1, peer6, peer 2, peer 3].map s.known = [none, none, some 2, some 0]) ∧
      s.Converged ∧ ∀ msg ∈ s.messages, InStep msg := by
  have hrun : ((run step start twoSnapshots).any fun s => decide
      ([peer 1, peer6, peer 2, peer 3].map s.known = [none, none, some 2, some 0])) = true := by
    decide +kernel
  obtain ⟨s, hs, hknown⟩ := (Option.any_eq_true _ _).mp hrun
  exact ⟨s, hs, of_decide_eq_true hknown, converged_of_run twoSnapshots s hs⟩

end PexLink

end XferRust.Discovery
