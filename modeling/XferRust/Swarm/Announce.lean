import XferRust.Storage.Resume
import XferRust.Swarm.Registry

/-! # Which pieces a peer is told of

A session says once which pieces there are: after the BT handshake, by what the store holds then.
Every piece that is accepted later goes into a queue of each cell in the table of peers
(`broadcast_have`), and the session sends what is in its own from time to time.  Pieces that come
into the store in another way, from the control file when the metadata is installed or from a
check of the files, are put into no queue; and neither is anything for a session whose cell is not
in the table.
-/
namespace XferRust.Swarm

open Storage (PieceMap hasBit indices mem_indices)

/-- The first message about pieces that a session sends, or that it sends none. -/
inductive Offer where
  | haveAll
  | haveNone
  | bitfield (bits : List UInt8)
  | nothing
  deriving DecidableEq

/-- The peer knows from it that we have the piece. -/
def Offer.covers (p : UInt32) : Offer → Bool
  | .haveAll => true
  | .bitfield bits => hasBit bits p
  | .haveNone => false
  | .nothing => false

/-- How far a session is with its first message. -/
inductive OfferStage where
  | shaking
  /-- Some pieces are there, and the bitfield is read next. -/
  | choosing
  | told (offer : Offer)
  deriving DecidableEq

/-- What goes out on a session about pieces. -/
structure Outlet where
  stage : OfferStage
  /-- The pieces sent as `Have`. -/
  sent : List UInt32
  /-- `have_out_queue`. -/
  queue : List UInt32
  deriving DecidableEq

structure Availability where
  reg : Registry
  /-- The map of the store. -/
  store : Option PieceMap
  /-- `has_metadata`. -/
  hasMetadata : Bool
  outlet : Nat → Outlet

inductive AvailabilityEvent where
  | peers (e : RegistryEvent)
  /-- `install_metadata`: the store, with the pieces that the control file gives back. -/
  | openStore (restored : PieceMap)
  /-- `install_metadata`: the metadata. -/
  | setMeta
  /-- `verify_existing_data` has checked the files. -/
  | verified (bitfield : List UInt8)
  /-- A session is past its handshake and looks at the store; `fast` when the other side has the
  fast extension. -/
  | begin (c : Nat) (fast : Bool)
  /-- It reads the bitfield and sends it. -/
  | bitfield (c : Nat)
  /-- `accept_piece` marks a piece, and `broadcast_have` follows. -/
  | complete (p : UInt32)
  /-- The timer of a session: its queue is taken and sent. -/
  | drain (c : Nat)

namespace Availability

/-- An engine that was made from a torrent file, or, with no map, from a magnet link. -/
def start (maxPeers : Nat) (listenPort : UInt16) (store : Option PieceMap) : Availability where
  reg := .start maxPeers listenPort
  store := store
  hasMetadata := store.isSome
  outlet := fun _ => { stage := .shaking, sent := [], queue := [] }

/-- `have_piece`. -/
def havePiece (s : Availability) (p : UInt32) : Bool :=
  match s.store with
  | none => false
  | some m => m.isSet p

/-- What `run_peer_inner` decides on under the lock of the store. -/
def firstMessage (fast : Bool) (m : PieceMap) : OfferStage :=
  let all := decide (0 < m.count) && m.allDone
  let any := decide (0 < m.count) && (indices m.count).any m.isSet
  if fast then
    if all then .told .haveAll else if !any then .told .haveNone else .choosing
  else if any then .choosing else .told .nothing

/-- The cells in the table. -/
def cells (s : Availability) : List Nat := s.reg.peers.entries.map fun e => e.2

/-- `broadcast_have`. -/
def broadcastHave (s : Availability) (p : UInt32) : Availability :=
  { s with
    outlet := fun c =>
      if c ∈ s.cells then { s.outlet c with queue := (s.outlet c).queue ++ [p] } else s.outlet c }

/-- A session comes to a stage. -/
def setStage (s : Availability) (c : Nat) (stage : OfferStage) : Availability :=
  { s with outlet := Function.update s.outlet c { s.outlet c with stage } }

def step (s : Availability) : AvailabilityEvent → Option Availability
  | .peers e => (s.reg.step e).map fun reg => { s with reg }
  | .openStore restored => some { s with store := some restored }
  | .setMeta => if s.store.isSome then some { s with hasMetadata := true } else none
  | .verified bitfield =>
    match s.store with
    | none => none
    | some m =>
      if bitfield.length = (m.count.toNat + 7) / 8 then
        some { s with store := some (m.setFromBitfield bitfield) }
      else some s
  | .begin c fast =>
    if (s.reg.cell c).task = .running ∧ (s.outlet c).stage = .shaking then
      if s.hasMetadata then s.store.map fun m => s.setStage c (firstMessage fast m)
      else some (s.setStage c (.told (if fast then .haveNone else .nothing)))
    else none
  | .bitfield c =>
    if (s.outlet c).stage = .choosing then
      s.store.map fun m => s.setStage c (.told (.bitfield m.toBitfield))
    else none
  | .complete p =>
    match s.store with
    | none => none
    | some m =>
      if s.hasMetadata ∧ p < m.count ∧ m.isSet p = false then
        some (broadcastHave { s with store := some (m.set p) } p)
      else none
  | .drain c =>
    some
      { s with
        outlet := Function.update s.outlet c
          { s.outlet c with sent := (s.outlet c).sent ++ (s.outlet c).queue, queue := [] } }

/-! ## What the peers are to know -/

/-- **Every live session has been told of every piece**, by its first message or by a `Have`, or
the `Have` waits in its queue. -/
def Announced (s : Availability) : Prop :=
  ∀ c, s.reg.Live c → ∀ offer, (s.outlet c).stage = .told offer →
    ∀ p, s.havePiece p = true →
      offer.covers p = true ∨ p ∈ (s.outlet c).sent ∨ p ∈ (s.outlet c).queue

/-- No live session has sent its first message. -/
def Silent (s : Availability) : Prop :=
  ∀ c < s.reg.next, s.reg.Live c →
    (s.outlet c).stage = .shaking ∨ (s.outlet c).stage = .choosing

instance (s : Availability) : Decidable s.Silent :=
  inferInstanceAs (Decidable (∀ c < s.reg.next, s.reg.Live c → _ ∨ _))

/-- The map has no piece that there was not before. -/
def AddsNothing (s : Availability) (m : PieceMap) : Prop :=
  ∀ p ∈ indices m.count, m.isSet p = true → s.havePiece p = true

instance (s : Availability) (m : PieceMap) : Decidable (s.AddsNothing m) :=
  inferInstanceAs (Decidable (∀ p ∈ indices m.count, _))

/-- What leaves no session out: no address of a live session is registered once more; pieces that
nobody broadcasts come into the store before any live session has sent its first message; and no
session looks for the metadata while the store has pieces already and the metadata is missing. -/
def Heard (s : Availability) : AvailabilityEvent → Prop
  | .peers e => ∀ a ∈ s.reg.registered e, s.reg.Unused a
  | .openStore restored => s.Silent ∨ s.AddsNothing restored
  | .verified bitfield =>
    s.Silent ∨ ∀ m ∈ s.store, s.AddsNothing (m.setFromBitfield bitfield)
  | .begin _ _ => s.hasMetadata = true ∨ ∀ m ∈ s.store, ∀ p ∈ indices m.count, m.isSet p = false
  | _ => True

instance decidableHeard (s : Availability) (e : AvailabilityEvent) : Decidable (s.Heard e) := by
  cases e with
  | peers e => exact inferInstanceAs (Decidable (∀ a ∈ s.reg.registered e, s.reg.Unused a))
  | openStore restored => exact inferInstanceAs (Decidable (s.Silent ∨ s.AddsNothing restored))
  | verified bitfield =>
    exact inferInstanceAs (Decidable (s.Silent ∨ ∀ m ∈ s.store, s.AddsNothing _))
  | begin c fast =>
    exact inferInstanceAs (Decidable (s.hasMetadata = true ∨ ∀ m ∈ s.store, ∀ p ∈ _, _))
  | _ => exact instDecidableTrue

/-! ## What one step keeps -/

/-- What holds in every state of a run in which every session is heard. -/
structure Faithful (s : Availability) : Prop where
  visible : s.reg.Visible
  announced : s.Announced
  fresh : ∀ c, s.reg.next ≤ c → (s.outlet c).stage = .shaking

namespace Faithful

variable {s : Availability}

theorem of_start (maxPeers : Nat) (listenPort : UInt16) (store : Option PieceMap) :
    (start maxPeers listenPort store).Faithful where
  visible := Registry.visible_start maxPeers listenPort
  announced := fun c _ offer h => by cases h
  fresh := fun c _ => rfl

/-- What the peers do. -/
theorem withReg (h : s.Faithful) {reg : Registry} (hc : s.reg.Carries reg) :
    Faithful { s with reg } where
  visible := hc.visible
  announced := fun c hl offer ho => by
    have hlt : c < s.reg.next := Nat.lt_of_not_le fun hle => by
      have hfresh := h.fresh c hle
      rw [show (s.outlet c).stage = .told offer from ho] at hfresh
      cases hfresh
    exact h.announced c (hc.live c hlt hl) offer ho
  fresh := fun c hle => h.fresh c (Nat.le_trans hc.next_le hle)

/-- A store with other pieces in it, when they are known or nobody has been told anything. -/
theorem withStore (h : s.Faithful) {m : PieceMap} (hm : s.Silent ∨ s.AddsNothing m) :
    Faithful { s with store := some m } where
  visible := h.visible
  announced := fun c hl offer ho p hp => by
    rcases hm with hsilent | hadds
    · have hstage : (s.outlet c).stage = .told offer := ho
      rcases hsilent c (h.visible.lt_next hl) hl with hs | hs
      · rw [hs] at hstage
        cases hstage
      · rw [hs] at hstage
        cases hstage
    · exact h.announced c hl offer ho p
        (hadds p (mem_indices.mpr (PieceMap.lt_count hp)) hp)
  fresh := h.fresh

/-- A session sends its first message, or is about to. -/
theorem setStage (h : s.Faithful) {c : Nat} (hc : c < s.reg.next) {stage : OfferStage}
    (hstage : ∀ offer, stage = .told offer → ∀ p, s.havePiece p = true →
      offer.covers p = true) : (s.setStage c stage).Faithful where
  visible := h.visible
  announced := fun d hl offer ho p hp => by
    by_cases heq : d = c
    · subst heq
      rw [show (s.setStage d stage).outlet d = { s.outlet d with stage } from
        Function.update_self ..] at ho
      exact .inl (hstage offer ho p hp)
    · rw [show (s.setStage c stage).outlet d = s.outlet d from Function.update_of_ne heq ..] at ho ⊢
      exact h.announced d hl offer ho p hp
  fresh := fun d hd => by
    rw [show (s.setStage c stage).outlet d = s.outlet d from
      Function.update_of_ne (Nat.ne_of_gt (Nat.lt_of_lt_of_le hc hd)) ..]
    exact h.fresh d hd

/-- The queue of a session goes out. -/
theorem drain (h : s.Faithful) (c : Nat) :
    Faithful { s with
      outlet := Function.update s.outlet c
        { s.outlet c with sent := (s.outlet c).sent ++ (s.outlet c).queue, queue := [] } } where
  visible := h.visible
  announced := fun d hl offer ho p hp => by
    dsimp only at ho ⊢
    by_cases heq : d = c
    · subst heq
      rw [Function.update_self] at ho ⊢
      rcases h.announced d hl offer ho p hp with hcov | hsent | hqueue
      · exact .inl hcov
      · exact .inr (.inl (List.mem_append_left _ hsent))
      · exact .inr (.inl (List.mem_append_right _ hqueue))
    · rw [Function.update_of_ne heq] at ho ⊢
      exact h.announced d hl offer ho p hp
  fresh := fun d hd => by
    dsimp only
    by_cases heq : d = c
    · subst heq
      rw [Function.update_self]
      exact h.fresh d hd
    · rw [Function.update_of_ne heq]
      exact h.fresh d hd

/-- **A broadcast reaches every live session**, for each of them is in the table. -/
theorem complete (h : s.Faithful) {m : PieceMap} (hm : s.store = some m) {p : UInt32}
    (hp : p < m.count) : (broadcastHave { s with store := some (m.set p) } p).Faithful where
  visible := h.visible
  announced := fun c hl offer ho q hq => by
    have hin : c ∈ s.cells := by
      have hentry := AList.mem_lookup_iff.mp (h.visible.shown c hl)
      exact List.mem_map.mpr ⟨_, hentry, rfl⟩
    have hout : (broadcastHave { s with store := some (m.set p) } p).outlet c =
        { s.outlet c with queue := (s.outlet c).queue ++ [p] } := if_pos hin
    rw [hout] at ho ⊢
    have hset : (m.set p).isSet q = true := hq
    rw [PieceMap.isSet_set_of_lt hp, Bool.or_eq_true, decide_eq_true_iff] at hset
    rcases hset with rfl | hold
    · exact .inr (.inr (List.mem_append_right _ (List.mem_singleton.mpr rfl)))
    · have hhave : s.havePiece q = true := by
        unfold havePiece
        rw [hm]
        exact hold
      rcases h.announced c hl offer ho q hhave with hcov | hsent | hqueue
      · exact .inl hcov
      · exact .inr (.inl hsent)
      · exact .inr (.inr (List.mem_append_left _ hqueue))
  fresh := fun c hc => by
    show (if c ∈ s.cells then _ else s.outlet c : Outlet).stage = .shaking
    split
    · exact h.fresh c hc
    · exact h.fresh c hc

end Faithful

/-- A piece that is set has its bit in the bitfield. -/
theorem hasBit_toBitfield {m : PieceMap} {p : UInt32} (h : m.isSet p = true) :
    hasBit m.toBitfield p = true := by
  unfold PieceMap.isSet at h
  split at h
  · cases h
  · exact h

/-- What is decided under the lock of the store covers what is in it. -/
theorem firstMessage_covers {fast : Bool} {m : PieceMap} {offer : Offer}
    (h : firstMessage fast m = .told offer) {p : UInt32} (hp : m.isSet p = true) :
    offer.covers p = true := by
  have hany : (decide (0 < m.count) && (indices m.count).any m.isSet) = true := by
    have hlt := PieceMap.lt_count hp
    rw [Bool.and_eq_true, decide_eq_true_iff, List.any_eq_true]
    exact ⟨UInt32.lt_of_le_of_lt (UInt32.zero_le) hlt, p, mem_indices.mpr hlt, hp⟩
  unfold firstMessage at h
  simp only [hany, Bool.not_true, Bool.false_eq_true, if_false, if_true] at h
  split at h
  · split at h
    · cases h
      rfl
    · cases h
  · cases h

theorem step_faithful {s s' : Availability} {e : AvailabilityEvent} (h : s.Faithful)
    (hheard : s.Heard e) (hstep : s.step e = some s') : s'.Faithful := by
  have hlt {c : Nat} (hrun : (s.reg.cell c).task = .running) : c < s.reg.next :=
    Nat.lt_of_not_le fun hle => by
      rw [h.visible.fresh c hle] at hrun
      cases hrun
  cases e with
  | peers e =>
    obtain ⟨reg, hreg, rfl⟩ := Option.map_eq_some_iff.mp hstep
    exact h.withReg (Registry.step_carries h.visible hheard hreg)
  | openStore restored =>
    obtain rfl := Option.some.inj hstep
    exact h.withStore hheard
  | setMeta =>
    obtain ⟨-, hs'⟩ := Option.ite_none_right_eq_some.mp hstep
    obtain rfl := Option.some.inj hs'
    exact ⟨h.visible, h.announced, h.fresh⟩
  | verified bitfield =>
    simp only [step] at hstep
    split at hstep
    · cases hstep
    · rename_i m hm
      split at hstep
      · obtain rfl := Option.some.inj hstep
        exact h.withStore (hheard.imp id fun hadds => hadds m hm)
      · obtain rfl := Option.some.inj hstep
        exact h
  | begin c fast =>
    obtain ⟨⟨hrun, -⟩, hs'⟩ := Option.ite_none_right_eq_some.mp hstep
    split at hs'
    · obtain ⟨m, hm, rfl⟩ := Option.map_eq_some_iff.mp hs'
      refine h.setStage (hlt hrun) fun offer ho p hp => firstMessage_covers ho ?_
      unfold havePiece at hp
      rwa [hm] at hp
    · rename_i hno
      obtain rfl := Option.some.inj hs'
      refine h.setStage (hlt hrun) fun offer _ p hp => ?_
      -- without metadata there is no piece in the store
      unfold havePiece at hp
      split at hp
      · cases hp
      · rename_i m hm
        have hnone := hheard.resolve_left hno m hm p (mem_indices.mpr (PieceMap.lt_count hp))
        rw [hnone] at hp
        cases hp
  | bitfield c =>
    obtain ⟨hstage, hs'⟩ := Option.ite_none_right_eq_some.mp hstep
    obtain ⟨m, hm, rfl⟩ := Option.map_eq_some_iff.mp hs'
    have hc : c < s.reg.next := Nat.lt_of_not_le fun hle => by
      rw [h.fresh c hle] at hstage
      cases hstage
    refine h.setStage hc fun offer ho p hp => ?_
    cases ho
    unfold havePiece at hp
    rw [hm] at hp
    exact hasBit_toBitfield hp
  | complete p =>
    simp only [step] at hstep
    split at hstep
    · cases hstep
    · rename_i m hm
      obtain ⟨⟨-, hp, -⟩, hs'⟩ := Option.ite_none_right_eq_some.mp hstep
      obtain rfl := Option.some.inj hs'
      exact h.complete hm hp
  | drain c =>
    obtain rfl := Option.some.inj hstep
    exact h.drain c

/-- **Every live session is told of every piece in every run in which it is heard**: whatever comes
between the check of the store, the bitfield and the broadcasts, and whoever connects and goes. -/
theorem announced_of_run (maxPeers : Nat) (listenPort : UInt16) (store : Option PieceMap)
    {es : List AvailabilityEvent}
    (hes : StepRun.Along step Heard (start maxPeers listenPort store) es) :
    StepRun.Everywhere step Announced (start maxPeers listenPort store) es :=
  StepRun.everywhere_of_along (fun _ h => h.announced)
    (fun _ _ _ h hheard hstep => step_faithful h hheard hstep)
    (.of_start maxPeers listenPort store) hes

/-- Two peers come before a piece is there, one of them without the fast extension, and a third
when there is one. -/
def heardEvents : List AvailabilityEvent :=
  [.peers (.accept (Registry.host 1)), .begin 0 true, .peers (.accept (Registry.host 2)),
    .begin 1 false, .complete 1, .drain 0, .peers (.accept (Registry.host 3)), .begin 2 true,
    .complete 0, .bitfield 2]

/-- A run in which every session is heard; at its end one piece is sent, two wait, and one was in
the bitfield. -/
theorem heardEvents_announced :
    ∃ s, StepRun.run step (start 50 6881 (some (.new 2))) heardEvents = some s ∧ s.Announced ∧
      (s.outlet 0).sent = [1] ∧ (s.outlet 0).queue = [0] ∧ (s.outlet 1).queue = [1, 0] ∧
      (s.outlet 2).stage = .told (.bitfield [0xc0]) :=
  ⟨_, rfl, announced_of_run 50 6881 (some (.new 2))
    (show StepRun.Along step Heard _ heardEvents by decide) heardEvents.length _ rfl,
    by decide, by decide, by decide, by decide⟩

/-- Two sessions that are never told of piece 0: one that came to a magnet task before its metadata
was installed with that piece restored, and one whose peer connected to us once more before the
piece was accepted. -/
theorem piece_unannounced :
    (∃ s, StepRun.run step (start 50 6881 none)
        [.peers (.accept (Registry.host 1)), .begin 0 true,
          .openStore ((PieceMap.new 2).set 0), .setMeta] = some s ∧
      s.reg.Live 0 ∧ s.havePiece 0 = true ∧
      s.outlet 0 = { stage := .told .haveNone, sent := [], queue := [] }) ∧
    ∃ s, StepRun.run step (start 50 6881 (some (.new 2)))
        [.peers (.accept (Registry.host 1)), .begin 0 true, .peers (.accept (Registry.host 1)),
          .complete 0] = some s ∧
      s.reg.Live 0 ∧ s.havePiece 0 = true ∧
      s.outlet 0 = { stage := .told .haveNone, sent := [], queue := [] } :=
  ⟨⟨_, rfl, by decide, by decide, by decide⟩, ⟨_, rfl, by decide, by decide, by decide⟩⟩

end Availability

end XferRust.Swarm
