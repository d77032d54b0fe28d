import Mathlib.Data.List.Destutter
import Mathlib.Data.Nat.Digits.Defs
import XferRust.Lib.Least
import XferRust.Dht.Krpc
import XferRust.Dht.TableInvariant

/-! # The iterative lookup

`get_peers` asks the nodes that it knows closest to an info hash, and goes on with the closest of
those that it is told of.  What the network answers is a parameter, and may depend on all that was
asked before.
-/
namespace XferRust.Dht
open RoutingTable Bucket Least

/-- What `get_peers` has in hand. -/
structure Lookup where
  visited : List NodeId
  allPeers : List PeerAddr
  announceNodes : List NodeEntry
  allKnown : List NodeEntry
  newNodes : List NodeEntry
  foundPeers : Bool
  /-- What it writes into the table, between what others write. -/
  writes : List TableEvent
  /-- The nodes that it has heard of; nothing reads them. -/
  heard : List NodeEntry

namespace Lookup

/-- The `max_iterations` of the loop. -/
def maxIterations : Nat := 20

/-- The candidates out of the table. -/
def start (t : RoutingTable) (target : NodeId) : Lookup where
  visited := []
  allPeers := []
  announceNodes := []
  allKnown := t.closest target maxNodes
  newNodes := []
  foundPeers := false
  writes := []
  heard := t.allNodes

variable (net : List NodeId → NodeEntry → Except KrpcError GetPeersResponse) (target : NodeId)

/-- One `get_peers_query`, and what is done with its response. -/
def query (s : Lookup) (n : NodeEntry) : Lookup :=
  let visited := s.visited ++ [n.id]
  match net s.visited n with
  | .error _ => { s with visited, writes := s.writes ++ [.markBad n.id] }
  | .ok resp =>
    let s :=
      { s with
        visited
        announceNodes := s.announceNodes ++ [n]
        writes := s.writes ++ [TableEvent.add { id := resp.responderId, addr := n.addr }] }
    match resp.peers with
    | some peers => { s with allPeers := s.allPeers ++ peers, foundPeers := true }
    | none =>
      { s with newNodes := s.newNodes ++ resp.nodes, heard := s.heard ++ resp.nodes }

/-- The candidates of the next round. -/
def nearest (l : List NodeEntry) : List NodeEntry :=
  ((StableSort.sortByKey (distance target) l).destutter fun a b => a.id ≠ b.id).take maxNodes

/-- A round, and whether the loop goes on. -/
def round (s : Lookup) : Lookup × Bool :=
  let toQuery := (s.allKnown.filter fun n => n.id ∉ s.visited).take maxNodes
  if toQuery = [] then (s, false)
  else
    let s := toQuery.foldl (query net) { s with newNodes := [], foundPeers := false }
    if s.foundPeers ∨ s.newNodes = [] then (s, false)
    else
      let allKnown := nearest target (s.allKnown ++ s.newNodes)
      ({ s with allKnown, writes := s.writes ++ allKnown.map .add }, true)

/-- At most so many rounds, and whether the loop has ended by itself. -/
def rounds : Nat → Lookup → Lookup × Bool
  | 0, s => (s, false)
  | k + 1, s =>
    let r := round net target s
    if r.2 then rounds k r.1 else (r.1, true)

variable {net} {target}

/-! ## A query -/

/-- What a list of queries does to the candidates. -/
structure Asked (s t : Lookup) (l : List NodeEntry) : Prop where
  visited : t.visited = s.visited ++ idsOf l
  allKnown : t.allKnown = s.allKnown
  told : ∃ more, t.newNodes = s.newNodes ++ more ∧ t.heard = s.heard ++ more

theorem asked_query (s : Lookup) (n : NodeEntry) : Asked s (query net s n) [n] := by
  unfold query
  cases net s.visited n with
  | error e => exact ⟨rfl, rfl, [], by simp⟩
  | ok resp =>
    dsimp only
    cases resp.peers with
    | none => exact ⟨rfl, rfl, resp.nodes, rfl, rfl⟩
    | some peers => exact ⟨rfl, rfl, [], by simp⟩

theorem asked_foldl (l : List NodeEntry) (s : Lookup) : Asked s (l.foldl (query net) s) l := by
  induction l generalizing s with
  | nil => exact ⟨(List.append_nil _).symm, rfl, [], by simp⟩
  | cons n l ih =>
    obtain ⟨hvisited, hknown, more, hnew, hheard⟩ := asked_query s n
    obtain ⟨hvisited', hknown', more', hnew', hheard'⟩ := ih (query net s n)
    refine ⟨?_, hknown'.trans hknown, more ++ more', ?_, ?_⟩
    · rw [List.foldl_cons, hvisited', hvisited, List.append_assoc]
      rfl
    · rw [List.foldl_cons, hnew', hnew, List.append_assoc]
    · rw [List.foldl_cons, hheard', hheard, List.append_assoc]

/-! ## The candidates -/

theorem distance_inj {a b : NodeEntry} : distance target a = distance target b ↔ a.id = b.id := by
  refine ⟨fun h => ?_, fun h => by rw [distance, distance, h]⟩
  have hdigits (n : NodeEntry) : distance target n =
      Nat.ofDigits 256 ((n.id.xor target).bytes.reverse.map UInt8.toNat) := by
    rw [Nat.ofDigits_eq_foldr, List.foldr_map, List.foldr_reverse]
    simp [distance, BigEndian.toNat, Nat.add_comm, Nat.mul_comm]
  have hlt (n : NodeEntry) : ∀ x ∈ (n.id.xor target).bytes.reverse.map UInt8.toNat, x < 256 := by
    simpa using fun b _ => b.toNat_lt
  have hxor := Nat.ofDigits_inj_of_len_eq (by decide) (by simp) (hlt a) (hlt b)
    ((hdigits a).symm.trans (h.trans (hdigits b)))
  refine Octets.ext_bytes (List.ext_getElem (by simp) fun i ha hb => ?_)
  have hi := List.getElem_of_eq (List.reverse_injective
    (List.map_injective_iff.mpr (fun _ _ => UInt8.toNat_inj.mp) hxor)) (i := i)
    (by rwa [Octets.length_bytes, ← a.id.length_eq])
  simpa [NodeId.xor, List.getElem_zipWith] using hi

/-- How far the nodes are from the target. -/
def keys (target : NodeId) (l : List NodeEntry) : List Nat := l.map (distance target)

theorem mem_keys {l : List NodeEntry} {n : NodeEntry} :
    distance target n ∈ keys target l ↔ n.id ∈ idsOf l := by
  simp [keys, idsOf, distance_inj]

theorem pairwise_keys (target : NodeId) (l : List NodeEntry) :
    (keys target (StableSort.sortByKey (distance target) l)).Pairwise (· ≤ ·) :=
  List.pairwise_map.mpr (StableSort.sortByKey_sorted _ l)

theorem mem_keys_sortByKey {l : List NodeEntry} {d : Nat} (h : d ∈ keys target l) :
    d ∈ keys target (StableSort.sortByKey (distance target) l) :=
  ((StableSort.sortByKey_perm (distance target) l).map _).mem_iff.mpr h

theorem least_nearest (target : NodeId) (l : List NodeEntry) :
    LeastOf maxNodes (keys target l) (keys target (nearest target l)) := by
  have hleast := leastOf_take (k := maxNodes) (pairwise_keys target l)
  have hmap : keys target (nearest target l) =
      ((keys target (StableSort.sortByKey (distance target) l)).destutter (· ≠ ·)).take maxNodes :=
    List.map_take.trans
      (congrArg _ (List.map_destutter fun _ _ _ _ => not_congr distance_inj.symm))
  rw [← (pairwise_keys target l).destutter_eq_dedup, ← hmap] at hleast
  exact ⟨hleast.sorted, hleast.length, fun d hd => hleast.least d (mem_keys_sortByKey hd)⟩

theorem least_start {t : RoutingTable} (h : t.WellKept) :
    LeastOf maxNodes (keys target t.allNodes) (keys target (t.closest target maxNodes)) := by
  have hleast := leastOf_take (k := maxNodes) (pairwise_keys target t.allNodes)
  have hnodup : (keys target (StableSort.sortByKey (distance target) t.allNodes)).Nodup := by
    refine ((StableSort.sortByKey_perm (distance target) _).map _).nodup_iff.mpr ?_
    exact List.pairwise_map.mpr ((List.pairwise_map.mp h.distinct).imp (mt distance_inj.mp))
  rw [hnodup.dedup, keys, ← List.map_take] at hleast
  exact ⟨hleast.sorted, hleast.length, fun d hd => hleast.least d (mem_keys_sortByKey hd)⟩

/-! ## The loop -/

/-- What holds between two rounds. -/
structure Kept (target : NodeId) (s : Lookup) : Prop where
  visited : s.visited.Nodup
  candidates : LeastOf maxNodes (keys target s.heard) (keys target s.allKnown)
  searching : s.foundPeers = false

/-- The closest of all nodes that it has heard of have been asked. -/
structure Exhausted (target : NodeId) (s : Lookup) : Prop where
  closest : LeastOf maxNodes (keys target s.heard) (keys target s.allKnown)
  asked : ∀ n ∈ s.allKnown, n.id ∈ s.visited

theorem Kept.round {s : Lookup} (h : Kept target s) {t : Lookup} {more : Bool}
    (hround : s.round net target = (t, more)) :
    t.visited.Nodup ∧ t.visited.length ≤ s.visited.length + maxNodes ∧
      if more then Kept target t else t.foundPeers ∨ Exhausted target t := by
  have hfew : s.allKnown.length ≤ maxNodes := List.length_map (distance target) ▸ h.candidates.length
  -- no more candidates than a round asks
  rw [Lookup.round, List.take_of_length_le ((List.length_filter_le _ _).trans hfew)] at hround
  generalize hquery : (s.allKnown.filter fun n => n.id ∉ s.visited) = toQuery at hround
  have hmem n : n ∈ toQuery ↔ n ∈ s.allKnown ∧ n.id ∉ s.visited := by simp [← hquery]
  dsimp only at hround
  split at hround
  · rename_i hnone
    obtain ⟨rfl, rfl⟩ := Prod.mk.inj hround
    refine ⟨h.visited, Nat.le_add_right _ _, .inr ⟨h.candidates, fun n hn => ?_⟩⟩
    by_contra hno
    exact List.not_mem_nil (hnone ▸ (hmem n).mpr ⟨hn, hno⟩)
  obtain ⟨hvisited, hknown, new, hnew, hheard⟩ :=
    asked_foldl toQuery { s with newNodes := [], foundPeers := false }
  generalize toQuery.foldl (query net) { s with newNodes := [], foundPeers := false } = u at *
  replace hnew : u.newNodes = new := hnew
  have hnodup : u.visited.Nodup := by
    rw [hvisited]
    refine h.visited.append (hquery ▸ .sublist (List.filter_sublist.map _) ?_) fun id hid hin => ?_
    · refine .of_map (fun id => BigEndian.toNat (id.xor target).bytes) ?_
      rw [List.map_map]
      exact h.candidates.sorted.nodup
    · obtain ⟨n, hn, rfl⟩ := mem_idsOf.mp hin
      exact ((hmem n).mp hn).2 hid
  have hlength : u.visited.length ≤ s.visited.length + maxNodes := by
    rw [hvisited, List.length_append, idsOf, List.length_map, ← hquery]
    exact Nat.add_le_add_left ((List.length_filter_le _ _).trans hfew) _
  split at hround
  · rename_i hstop
    obtain ⟨rfl, rfl⟩ := Prod.mk.inj hround
    refine ⟨hnodup, hlength, hstop.imp_right fun hnone => ⟨?_, fun n hn => ?_⟩⟩
    · rw [hheard, hknown, ← hnew, hnone, List.append_nil]
      exact h.candidates
    · rw [hvisited]
      refine List.mem_append.mpr (or_iff_not_imp_left.mpr fun hno => ?_)
      exact List.mem_map_of_mem ((hmem n).mpr ⟨hknown ▸ hn, hno⟩)
  · rename_i hgoes
    obtain ⟨rfl, rfl⟩ := Prod.mk.inj hround
    refine ⟨hnodup, hlength, hnodup, ?_, Bool.eq_false_iff.mpr (not_or.mp hgoes).1⟩
    have hnext := least_nearest target (u.allKnown ++ u.newNodes)
    rw [keys, List.map_append, hknown, hnew] at hnext
    show LeastOf _ (keys target u.heard) (keys target (nearest target (u.allKnown ++ u.newNodes)))
    rw [hheard, keys, List.map_append, hknown, hnew]
    exact h.candidates.trans hnext

theorem Kept.rounds {k : Nat} {s t : Lookup} {ended : Bool} (h : Kept target s)
    (hrun : s.rounds net target k = (t, ended)) :
    t.visited.Nodup ∧ t.visited.length ≤ s.visited.length + maxNodes * k ∧
      (ended → t.foundPeers ∨ Exhausted target t) := by
  induction k generalizing s with
  | zero =>
    obtain ⟨rfl, rfl⟩ := Prod.mk.inj hrun
    exact ⟨h.visited, Nat.le_refl _, nofun⟩
  | succ k ih =>
    rw [Lookup.rounds] at hrun
    obtain ⟨hnodup, hlength, hnext⟩ := h.round (Prod.eta (s.round net target)).symm
    split at hrun
    · rename_i hmore
      rw [if_pos hmore] at hnext
      obtain ⟨hvisited, hle, hend⟩ := ih hnext hrun
      exact ⟨hvisited, by rw [Nat.mul_succ]; omega, hend⟩
    · rename_i hmore
      obtain ⟨rfl, rfl⟩ := Prod.mk.inj hrun
      rw [if_neg hmore] at hnext
      exact ⟨hnodup, by rw [Nat.mul_succ]; omega, fun _ => hnext⟩

/-- One node answers, with the address of one that is silent. -/
def relay (_ : List NodeId) (n : NodeEntry) : Except KrpcError GetPeersResponse :=
  if n = nodeOf 1 then
    .ok { responderId := n.id, token := [], peers := none, nodes := [nodeOf 2, nodeOf 1] }
  else .error .timeout

def relayTable : RoutingTable := (RoutingTable.new (nodeOf 7).id).add (nodeOf 1)

end Lookup
end XferRust.Dht
