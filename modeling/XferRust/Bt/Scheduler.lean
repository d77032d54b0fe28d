import Mathlib.Algebra.Group.Nat.Defs
import XferRust.Lib.Faults
import XferRust.Lib.StableSort
import XferRust.Lib.StepRun
import XferRust.Lib.Tiling

/-! # The peer scheduler of a torrent

Each round takes samples of the connected peers and says whether to connect more peers, to replace
slow ones or to hold.  The target goes up by a step while more connections bring more throughput, and
down by a quarter when the throughput falls.

The floating point numbers of the source are a parameter: no limit of the scheduler depends on what
its ratios come to.  Integers are natural numbers, and an operation whose result has no room in its
type panics.
-/
namespace XferRust.Bt.Scheduler
open Tiling (total)

/-! ## Numbers -/

/-- The numbers of type `f64`, as far as they are used. -/
structure Floats (F : Type) where
  ofNat : Nat → F
  sub : F → F → F
  mul : F → F → F
  div : F → F → F
  gt : F → F → Bool
  ge : F → F → Bool
  ceil : F → F
  /-- `as u64` and `as usize`. -/
  toNat : F → Nat

/-- A result of so many bits. -/
def word (bits n : Nat) : Guarded Empty Nat := if n < 2 ^ bits then .ok n else .error .panic

/-! ## The scheduler -/

structure PeerSchedulerConfig (F : Type) where
  maxPeers : Nat
  minPeers : Nat
  expandStep : Nat
  gainRatio : F
  stagnantRounds : Nat
  slowRatio : F
  slowFloor : Nat
  /-- In nanoseconds. -/
  gracePeriod : Nat
  evictRatio : F
  deriving DecidableEq

/-- The default; each of its ratios is a tenth. -/
def PeerSchedulerConfig.default {F : Type} (tenth : F) : PeerSchedulerConfig F where
  maxPeers := 50
  minPeers := 2
  expandStep := 4
  gainRatio := tenth
  stagnantRounds := 6
  slowRatio := tenth
  slowFloor := 10240
  gracePeriod := 40 * 1000000000
  evictRatio := tenth

structure PeerSample (A : Type) where
  addr : A
  speed : Nat
  connectedFor : Nat

inductive ScheduleAction (A : Type)
  | hold
  | expand (n : Nat)
  | replace (victims : List A)
  deriving DecidableEq

structure PeerScheduler (F : Type) where
  cfg : PeerSchedulerConfig F
  target : Nat
  lastThroughput : Nat
  stagnant : Nat
  started : Bool
  deriving DecidableEq

/-- `peers.iter().map(|p| p.speed).sum()`. -/
def sumSpeeds {A : Type} : Nat → List (PeerSample A) → Guarded Empty Nat
  | acc, [] => .ok acc
  | acc, p :: peers => word 64 (acc + p.speed) >>= fun acc => sumSpeeds acc peers

namespace PeerScheduler

variable {F A : Type} (fl : Floats F)

def new (cfg : PeerSchedulerConfig F) : PeerScheduler F where
  cfg := { cfg with minPeers := min cfg.minPeers cfg.maxPeers }
  target := cfg.maxPeers
  lastThroughput := 0
  stagnant := 0
  started := false

/-- `try_expand`. -/
def tryExpand (s : PeerScheduler F) (active pending : Nat) : Option (ScheduleAction A) :=
  if active ≥ s.target ∨ pending = 0 then none
  else some (.expand (min (s.target - active) pending))

/-- `expand`. -/
def expand (s : PeerScheduler F) (active pending : Nat) : ScheduleAction A :=
  (s.tryExpand active pending).getD .hold

/-- The speed below which a peer is slow, for a median. -/
def threshold (cfg : PeerSchedulerConfig F) (median : Nat) : Nat :=
  max (fl.toNat (fl.mul (fl.ofNat median) cfg.slowRatio)) cfg.slowFloor

/-- The speeds in ascending order. -/
def sortedSpeeds (peers : List (PeerSample A)) : List Nat :=
  StableSort.sortByKey id (peers.map PeerSample.speed)

/-- `try_replace`. -/
def tryReplace (s : PeerScheduler F) (peers : List (PeerSample A)) :
    Guarded Empty (Option (ScheduleAction A)) :=
  if peers.length ≤ s.cfg.minPeers then .ok none
  else
    Guarded.index (sortedSpeeds peers) ((sortedSpeeds peers).length / 2) >>= fun median =>
      let slow := peers.filter fun p =>
        p.connectedFor ≥ s.cfg.gracePeriod && p.speed < threshold fl s.cfg median
      if slow.isEmpty then .ok none
      else
        let slow := StableSort.sortByKey PeerSample.speed slow
        let maxEvict := fl.toNat (fl.ceil (fl.mul (fl.ofNat peers.length) s.cfg.evictRatio))
        Guarded.sub peers.length s.cfg.minPeers >>= fun room =>
          let victims := (slow.take (min (max maxEvict 1) room)).map PeerSample.addr
          .ok (if victims.isEmpty then none else some (.replace victims))

/-- The growth of the throughput since the last round. -/
def gain (throughput prevThroughput : Nat) : F :=
  fl.sub (fl.div (fl.ofNat throughput) (fl.ofNat (max prevThroughput 1))) (fl.ofNat 1)

/-- The part of `evaluate` that moves the target and counts the rounds without growth. -/
def adjust (s : PeerScheduler F) (throughput prevThroughput : Nat) :
    Guarded Empty (PeerScheduler F) :=
  let gain := gain fl throughput prevThroughput
  if throughput = 0 ∧ prevThroughput = 0 then
    word 32 (s.stagnant + 1) >>= fun stagnant => .ok { s with stagnant }
  else if fl.gt gain s.cfg.gainRatio then
    word 64 (s.target + s.cfg.expandStep) >>= fun more =>
      .ok { s with stagnant := 0, target := min more s.cfg.maxPeers }
  else if fl.ge gain (fl.ofNat 0) then
    word 32 (s.stagnant + 1) >>= fun stagnant => .ok { s with stagnant }
  else
    word 64 (s.target * 3) >>= fun threefold =>
      .ok
        { s with
          stagnant := min (s.stagnant + 2) 0xFFFFFFFF
          target := max (threefold / 4) s.cfg.minPeers }

/-- The part of `evaluate` that chooses the action. -/
def choose (s : PeerScheduler F) (peers : List (PeerSample A)) (pending : Nat) :
    Guarded Empty (PeerScheduler F × ScheduleAction A) :=
  match s.tryExpand peers.length pending with
  | some action => .ok (s, action)
  | none =>
    if s.stagnant ≥ s.cfg.stagnantRounds ∧ pending > 0 then
      s.tryReplace fl peers >>= fun action =>
        match action with
        | some action => .ok ({ s with stagnant := 0 }, action)
        | none => .ok (s, .hold)
    else .ok (s, .hold)

/-- `evaluate`. -/
def evaluate (s : PeerScheduler F) (peers : List (PeerSample A)) (pending : Nat) :
    Guarded Empty (PeerScheduler F × ScheduleAction A) :=
  sumSpeeds 0 peers >>= fun throughput =>
    if !s.started then
      let s :=
        { s with started := true, target := s.cfg.maxPeers, lastThroughput := throughput }
      .ok (s, s.expand peers.length pending)
    else
      { s with lastThroughput := throughput }.adjust fl throughput s.lastThroughput >>= fun s =>
        s.choose fl peers pending

end PeerScheduler

/-! ## Rounds -/

/-- What a round is given: the samples are of different addresses, since they come from the map of
the connected peers. -/
structure Round (A : Type) where
  peers : List (PeerSample A)
  pending : Nat
  distinct : (peers.map PeerSample.addr).Nodup

section
variable {F A : Type} (fl : Floats F)

/-- The scheduler behind a round that does not panic. -/
def step (s : PeerScheduler F) (r : Round A) : Option (PeerScheduler F) :=
  match s.evaluate fl r.peers r.pending with
  | .ok (s', _) => some s'
  | .error _ => none

/-- The target is between its bounds. -/
def Bounded (s : PeerScheduler F) : Prop := s.cfg.minPeers ≤ s.target ∧ s.target ≤ s.cfg.maxPeers

/-- A peer that may be replaced: it is past the grace period, and slower than the threshold. -/
def Slow (cfg : PeerSchedulerConfig F) (peers : List (PeerSample A)) (p : PeerSample A) : Prop :=
  ∃ median, (PeerScheduler.sortedSpeeds peers)[(PeerScheduler.sortedSpeeds peers).length / 2]? =
      some median ∧
    cfg.gracePeriod ≤ p.connectedFor ∧ p.speed < PeerScheduler.threshold fl cfg median

/-- **The limits of an action**, with the scheduler behind the round. -/
def Within (s : PeerScheduler F) (r : Round A) : ScheduleAction A → Prop
  | .hold => True
  | .expand n => r.peers.length + n ≤ s.target ∧ n ≤ r.pending
  | .replace victims =>
    s.cfg.minPeers ≤ r.peers.length - victims.length ∧ victims.length ≤ r.peers.length ∧
      victims.Nodup ∧ ∀ addr ∈ victims, ∃ p ∈ r.peers, p.addr = addr ∧ Slow fl s.cfg r.peers p

/-- **A good round**: no number is too large for its type, the target is between the bounds of the
configuration, which stays as it is, and the action keeps its limits. -/
def Good (s : PeerScheduler F) (r : Round A) : Prop :=
  ∃ s' action, s.evaluate fl r.peers r.pending = .ok (s', action) ∧ s'.cfg = s.cfg ∧
    Bounded s' ∧ Within fl s' r action

/-- **The condition on a round**: the speeds of the peers can be added, and so can whatever the
throughput makes the round add to the target or to the count of rounds without growth. -/
def Clear (s : PeerScheduler F) (r : Round A) : Prop :=
  let throughput := total PeerSample.speed r.peers
  let gain := PeerScheduler.gain fl throughput s.lastThroughput
  throughput < 2 ^ 64 ∧
    (s.started = true →
      if throughput = 0 ∧ s.lastThroughput = 0 then s.stagnant + 1 < 2 ^ 32
      else if fl.gt gain s.cfg.gainRatio then s.target + s.cfg.expandStep < 2 ^ 64
      else if fl.ge gain (fl.ofNat 0) then s.stagnant + 1 < 2 ^ 32
      else s.target * 3 < 2 ^ 64)

/-! ## Part by part -/

variable {n : Nat} {s s' : PeerScheduler F} {r : Round A}

theorem word_eq_ok {bits m : Nat} : word bits n = .ok m ↔ n = m ∧ n < 2 ^ bits := by
  unfold word
  split
  · rename_i h
    exact ⟨fun heq => ⟨Except.ok.inj heq, h⟩, fun heq => heq.1 ▸ rfl⟩
  · rename_i h
    exact ⟨nofun, fun heq => absurd heq.2 h⟩

theorem sumSpeeds_eq_ok {acc : Nat} {peers : List (PeerSample A)} (hacc : acc < 2 ^ 64) :
    sumSpeeds acc peers = .ok n ↔
      acc + total PeerSample.speed peers = n ∧ acc + total PeerSample.speed peers < 2 ^ 64 := by
  induction peers generalizing acc with
  | nil =>
    rw [Tiling.total_nil, Nat.add_zero]
    exact ⟨fun h => ⟨Except.ok.inj h, hacc⟩, fun h => congrArg Except.ok h.1⟩
  | cons p peers ih =>
    rw [sumSpeeds, Guarded.bind_eq_ok, Tiling.total_cons, ← Nat.add_assoc]
    constructor
    · rintro ⟨sum, hsum, hrest⟩
      obtain ⟨rfl, hlt⟩ := word_eq_ok.mp hsum
      exact (ih hlt).mp hrest
    · rintro ⟨rfl, hlt⟩
      have hfits : acc + p.speed < 2 ^ 64 := by omega
      exact ⟨acc + p.speed, word_eq_ok.mpr ⟨rfl, hfits⟩, (ih hfits).mpr ⟨rfl, hlt⟩⟩

/-- A checked result that is only stored is there exactly if it has room. -/
theorem returns_word {β : Type} {bits : Nat} (f : Nat → β) :
    Guarded.Returns (word bits n >>= fun m => (.ok (f m) : Guarded Empty β)) ↔ n < 2 ^ bits := by
  rw [Guarded.returns_bind]
  constructor
  · rintro ⟨m, hm, -⟩
    exact (word_eq_ok.mp hm).2
  · intro hfits
    exact ⟨n, word_eq_ok.mpr ⟨rfl, hfits⟩, Guarded.returns_ok _⟩

/-- **`adjust`** panics exactly where a sum has no room. -/
theorem adjust_iff (s : PeerScheduler F) (throughput prev : Nat) :
    Guarded.Returns (s.adjust fl throughput prev) ↔
      if throughput = 0 ∧ prev = 0 then s.stagnant + 1 < 2 ^ 32
      else if fl.gt (PeerScheduler.gain fl throughput prev) s.cfg.gainRatio then
        s.target + s.cfg.expandStep < 2 ^ 64
      else if fl.ge (PeerScheduler.gain fl throughput prev) (fl.ofNat 0) then
        s.stagnant + 1 < 2 ^ 32
      else s.target * 3 < 2 ^ 64 := by
  unfold PeerScheduler.adjust
  dsimp only
  split
  · exact returns_word _
  split
  · exact returns_word _
  split
  · exact returns_word _
  · exact returns_word _

/-- **`adjust`** keeps the target between its bounds. -/
theorem adjust_keeps {throughput prev : Nat} (hs : Bounded s)
    (h : s.adjust fl throughput prev = .ok s') : s'.cfg = s.cfg ∧ Bounded s' := by
  obtain ⟨hmin, hmax⟩ := hs
  unfold PeerScheduler.adjust at h
  dsimp only at h
  split at h
  · obtain ⟨n, -, heq⟩ := Guarded.bind_eq_ok.mp h
    cases heq
    exact ⟨rfl, hmin, hmax⟩
  split at h
  · obtain ⟨n, hn, heq⟩ := Guarded.bind_eq_ok.mp h
    obtain ⟨rfl, -⟩ := word_eq_ok.mp hn
    cases heq
    refine ⟨rfl, ?_, Nat.min_le_right _ _⟩
    show s.cfg.minPeers ≤ min (s.target + s.cfg.expandStep) s.cfg.maxPeers
    omega
  split at h
  · obtain ⟨n, -, heq⟩ := Guarded.bind_eq_ok.mp h
    cases heq
    exact ⟨rfl, hmin, hmax⟩
  · obtain ⟨n, hn, heq⟩ := Guarded.bind_eq_ok.mp h
    obtain ⟨rfl, -⟩ := word_eq_ok.mp hn
    cases heq
    refine ⟨rfl, Nat.le_max_right _ _, ?_⟩
    show max (s.target * 3 / 4) s.cfg.minPeers ≤ s.cfg.maxPeers
    omega

/-! ## The action -/

theorem tryExpand_eq_some {active pending : Nat} {action : ScheduleAction A}
    (h : s.tryExpand active pending = some action) :
    ∃ n, action = .expand n ∧ active + n ≤ s.target ∧ n ≤ pending := by
  unfold PeerScheduler.tryExpand at h
  split at h
  · cases h
  · rename_i hroom
    obtain ⟨hlt, -⟩ := not_or.mp hroom
    obtain rfl := Option.some.inj h
    refine ⟨_, rfl, ?_, Nat.min_le_right _ _⟩
    have := Nat.min_le_left (s.target - active) pending
    omega

/-- What `tryExpand` gives keeps the limits of the round. -/
theorem within_expand {s₀ : PeerScheduler F} (htarget : s.target = s₀.target) :
    Within fl s₀ r (s.expand r.peers.length r.pending) := by
  unfold PeerScheduler.expand
  cases hact : s.tryExpand (A := A) r.peers.length r.pending with
  | none => trivial
  | some action =>
    obtain ⟨n, rfl, hn, hpending⟩ := tryExpand_eq_some hact
    exact ⟨htarget ▸ hn, hpending⟩

/-- A list of peers has a median when there are any. -/
theorem exists_median (peers : List (PeerSample A)) (h : 0 < peers.length) :
    ∃ median, (PeerScheduler.sortedSpeeds peers)[(PeerScheduler.sortedSpeeds peers).length / 2]? =
      some median := by
  have hlen : (PeerScheduler.sortedSpeeds peers).length = peers.length :=
    (StableSort.sortByKey_perm id _).length_eq.trans (List.length_map _)
  exact ⟨_, List.getElem?_eq_getElem (by omega)⟩

/-- **`tryReplace`** never panics, and its victims keep their limits. -/
theorem tryReplace_spec (s : PeerScheduler F) (r : Round A) :
    ∃ action, s.tryReplace fl r.peers = .ok action ∧ ∀ a ∈ action, Within fl s r a := by
  unfold PeerScheduler.tryReplace
  split
  · exact ⟨none, rfl, nofun⟩
  rename_i hmore
  obtain ⟨median, hmedian⟩ := exists_median r.peers (by omega)
  rw [Guarded.index_ok hmedian, Guarded.ok_bind]
  extract_lets slow sorted maxEvict
  split
  · exact ⟨none, rfl, nofun⟩
  rw [Guarded.sub_ok (by omega), Guarded.ok_bind]
  refine ⟨_, rfl, fun a ha => ?_⟩
  split at ha
  · cases ha
  obtain rfl := Option.some.inj ha
  refine ⟨?_, ?_, ?_, ?_⟩
  · rw [List.length_map, List.length_take]
    omega
  · rw [List.length_map, List.length_take]
    omega
  · -- the slow peers are some of the peers, in another order
    have hslow : (slow.map PeerSample.addr).Nodup :=
      (List.filter_sublist.map PeerSample.addr).nodup r.distinct
    have hsorted : (sorted.map PeerSample.addr).Nodup :=
      ((StableSort.sortByKey_perm PeerSample.speed slow).map PeerSample.addr).nodup_iff.mpr hslow
    exact ((List.take_sublist _ _).map PeerSample.addr).nodup hsorted
  · intro addr haddr
    obtain ⟨p, hp, rfl⟩ := List.mem_map.mp haddr
    have hmem := (StableSort.mem_sortByKey PeerSample.speed).mp (List.mem_of_mem_take hp)
    obtain ⟨hin, hcond⟩ := List.mem_filter.mp hmem
    obtain ⟨hgrace, hspeed⟩ := Bool.and_eq_true_iff.mp hcond
    exact ⟨p, hin, rfl, median, hmedian, of_decide_eq_true hgrace, of_decide_eq_true hspeed⟩

/-- **`choose`** never panics, leaves target and configuration, and its action keeps its limits. -/
theorem choose_spec (s : PeerScheduler F) (r : Round A) :
    ∃ s' action, s.choose fl r.peers r.pending = .ok (s', action) ∧ s'.cfg = s.cfg ∧
      s'.target = s.target ∧ Within fl s' r action := by
  unfold PeerScheduler.choose
  cases hexp : s.tryExpand (A := A) r.peers.length r.pending with
  | some action =>
    obtain ⟨n, rfl, hn, hpending⟩ := tryExpand_eq_some hexp
    exact ⟨s, _, rfl, rfl, rfl, hn, hpending⟩
  | none =>
    dsimp only
    split
    · obtain ⟨action, hok, hwithin⟩ := tryReplace_spec fl s r
      rw [hok]
      cases action with
      | none => exact ⟨s, .hold, rfl, rfl, rfl, trivial⟩
      | some action =>
        refine ⟨{ s with stagnant := 0 }, action, rfl, rfl, rfl, ?_⟩
        have := hwithin action rfl
        cases action with
        | hold => trivial
        | expand n => exact this
        | replace victims => exact this
    · exact ⟨s, .hold, rfl, rfl, rfl, trivial⟩

/-! ## One round -/

/-- **A round** panics exactly where a sum has no room. -/
theorem evaluate_iff (s : PeerScheduler F) (r : Round A) :
    Guarded.Returns (s.evaluate fl r.peers r.pending) ↔ Clear fl s r := by
  unfold PeerScheduler.evaluate Clear
  dsimp only
  rw [Guarded.returns_bind]
  constructor
  · rintro ⟨throughput, hsum, hrest⟩
    obtain ⟨hthroughput, hfits⟩ := (sumSpeeds_eq_ok (Nat.two_pow_pos 64)).mp hsum
    rw [Nat.zero_add] at hthroughput hfits
    refine ⟨hfits, fun hstarted => ?_⟩
    rw [hthroughput]
    rw [if_neg (by rw [hstarted]; exact Bool.false_ne_true), Guarded.returns_bind] at hrest
    obtain ⟨t, ht, -⟩ := hrest
    exact (adjust_iff fl { s with lastThroughput := throughput } _ _).mp ⟨t, ht⟩
  · rintro ⟨hfits, hclear⟩
    refine ⟨total PeerSample.speed r.peers, (sumSpeeds_eq_ok (Nat.two_pow_pos 64)).mpr ?_, ?_⟩
    · rw [Nat.zero_add]
      exact ⟨rfl, hfits⟩
    by_cases hstarted : s.started = true
    · rw [if_neg (by rw [hstarted]; exact Bool.false_ne_true), Guarded.returns_bind]
      obtain ⟨t, ht⟩ := (adjust_iff fl { s with lastThroughput := total PeerSample.speed r.peers }
        _ _).mpr (hclear hstarted)
      obtain ⟨s', action, hok, -⟩ := choose_spec fl t r
      exact ⟨t, ht, (s', action), hok⟩
    · rw [if_pos (by rw [Bool.eq_false_iff.mpr hstarted]; rfl)]
      exact Guarded.returns_ok _

/-- **What a round gives** keeps the configuration, the bounds of the target and the limits of the
action. -/
theorem evaluate_spec {action : ScheduleAction A} (hs : Bounded s)
    (h : s.evaluate fl r.peers r.pending = .ok (s', action)) :
    s'.cfg = s.cfg ∧ Bounded s' ∧ Within fl s' r action := by
  obtain ⟨throughput, -, hrest⟩ := Guarded.bind_eq_ok.mp h
  by_cases hstarted : s.started = true
  · rw [if_neg (by rw [hstarted]; exact Bool.false_ne_true)] at hrest
    obtain ⟨t, ht, hchoose⟩ := Guarded.bind_eq_ok.mp hrest
    obtain ⟨hcfg, hbounded⟩ := adjust_keeps fl (s := { s with lastThroughput := throughput }) hs ht
    obtain ⟨u, a, hok, hcfg', htarget, hwithin⟩ := choose_spec fl t r
    cases hok.symm.trans hchoose
    refine ⟨hcfg'.trans hcfg, ?_, hwithin⟩
    rw [Bounded, hcfg', htarget]
    exact hbounded
  · -- the first round sets the target to its upper bound
    rw [if_pos (by rw [Bool.eq_false_iff.mpr hstarted]; rfl)] at hrest
    cases hrest
    exact ⟨rfl, ⟨Nat.le_trans hs.1 hs.2, Nat.le_refl _⟩, within_expand fl rfl⟩

theorem good_iff (hs : Bounded s) (r : Round A) : Good fl s r ↔ Clear fl s r := by
  rw [← evaluate_iff]
  constructor
  · rintro ⟨s', action, hok, -⟩
    exact ⟨(s', action), hok⟩
  · rintro ⟨⟨s', action⟩, hok⟩
    exact ⟨s', action, hok, evaluate_spec fl hs hok⟩

/-! ## Every run -/

theorem new_bounded (cfg : PeerSchedulerConfig F) : Bounded (PeerScheduler.new cfg) :=
  ⟨Nat.min_le_right _ _, Nat.le_refl _⟩

theorem step_bounded (hs : Bounded s) (h : step fl s r = some s') : Bounded s' := by
  unfold step at h
  split at h
  · rename_i t action hok
    obtain rfl := Option.some.inj h
    exact (evaluate_spec fl hs hok).2.1
  · cases h

/-- **The limits of the scheduler**, for every configuration: over any sequence of rounds each one
is good exactly if each one has room for its sums. -/
theorem limits_iff (cfg : PeerSchedulerConfig F) (rounds : List (Round A)) :
    StepRun.Along (step fl) (Good fl) (.new cfg) rounds ↔
      StepRun.Along (step fl) (Clear fl) (.new cfg) rounds := by
  constructor
  · exact StepRun.along_of_along (fun s r hs hgood => (good_iff fl hs r).mp hgood)
      (fun s r s' hs _ he => step_bounded fl hs he) (new_bounded cfg)
  · exact StepRun.along_of_along (fun s r hs hclear => (good_iff fl hs r).mpr hclear)
      (fun s r s' hs _ he => step_bounded fl hs he) (new_bounded cfg)

end

/-! ## A step without room -/

/-- Exact fractions as numbers; what is below zero or too large is cut off. -/
def fractions : Floats Rat where
  ofNat n := n
  sub := (· - ·)
  mul := (· * ·)
  div := (· / ·)
  gt a b := b < a
  ge a b := b ≤ a
  ceil a := a.ceil
  toNat a := min a.floor.toNat (2 ^ 64 - 1)

/-- As many peers as there can be, and the default for the rest. -/
def unlimited : PeerSchedulerConfig Rat :=
  { PeerSchedulerConfig.default (1 / 10) with maxPeers := 2 ^ 64 - 1 }

def onePeer (speed : Nat) : Round Nat := ⟨[⟨0, speed, 0⟩], 0, List.pairwise_singleton _ _⟩

/-- The throughput grows in the second round, and the target has no room for another step. -/
theorem unlimited_not_good :
    ¬StepRun.Along (step fractions) (Good fractions) (.new unlimited) [onePeer 1, onePeer 2] := by
  rintro ⟨-, h⟩
  obtain ⟨⟨s', action, hok, -⟩, -⟩ := h ⟨unlimited, 2 ^ 64 - 1, 1, 0, true⟩ (by decide +kernel)
  have hpanic : (PeerScheduler.evaluate fractions ⟨unlimited, 2 ^ 64 - 1, 1, 0, true⟩
      (onePeer 2).peers (onePeer 2).pending) = .error .panic := by decide +kernel
  exact absurd (hok.symm.trans hpanic) nofun

end XferRust.Bt.Scheduler
