import XferRust.Dht.Tokens

/-! # What the peer store holds

The store keeps a list of addresses for each info hash that was announced, and drops hashes in the
order of their insertion when there are too many.  A queue carries that order beside the map.
`Exact` ties the two to the announcements: the queue is the end of the sequence of insertions, and
the keys of the map are the hashes in it.  An announcement is dropped with its hash, and otherwise
only for a later one of the same hash.
-/
namespace XferRust.Dht
open SortedMap (lookup lookup_eq_some lookup_isSome_iff)

/-- An announcement that was accepted: the hash and the address. -/
abbrev Announcement := InfoHash × SocketAddr

namespace KnownPeers

/-- The store of a new node. -/
def empty : KnownPeers := { map := [], order := [] }

/-- The store behind announcements. -/
def addAll (k : KnownPeers) (announced : List Announcement) : KnownPeers :=
  announced.foldl (fun k a => k.add a.1 a.2) k

/-- The hashes that the announcements insert, each at the time when it is not a key. -/
def insertions (k : KnownPeers) : List Announcement → List InfoHash
  | [] => []
  | a :: announced =>
    (if (lookup a.1 k.map).isSome then [] else [a.1]) ++ insertions (k.add a.1 a.2) announced

end KnownPeers

/-- The address that was announced last for a hash. -/
def latest (announced : List Announcement) (infoHash : InfoHash) : Option SocketAddr :=
  (announced.reverse.find? fun a => a.1 = infoHash).map Prod.snd

theorem latest_append (announced : List Announcement) (a : Announcement) (infoHash : InfoHash) :
    latest (announced ++ [a]) infoHash =
      if a.1 = infoHash then some a.2 else latest announced infoHash := by
  unfold latest
  rw [List.reverse_append, List.reverse_singleton, List.singleton_append, List.find?_cons]
  by_cases h : a.1 = infoHash
  · rw [if_pos h, decide_eq_true h]
    rfl
  · rw [if_neg h, decide_eq_false h]

namespace KnownPeers

/-! ## The parts of an announcement -/

variable {map : List (InfoHash × List SocketAddr)}

/-- **Making room** takes the same number of keys from the front of both. -/
theorem evict_eq (h : (map.map Prod.fst).Nodup) :
    evict map (map.map Prod.fst) =
      { map := map.drop (map.length + 1 - maxKnownInfohashes)
        order := (map.drop (map.length + 1 - maxKnownInfohashes)).map Prod.fst } := by
  induction map with
  | nil => rfl
  | cons e map ih =>
    obtain ⟨hnew, hrest⟩ := List.nodup_cons.mp h
    rw [List.map_cons, evict]
    by_cases hfull : maxKnownInfohashes ≤ (e :: map).length
    · have hfilter : (e :: map).filter (fun f => f.1 ≠ e.1) = map := by
        rw [List.filter_cons_of_neg (by simp)]
        refine List.filter_eq_self.mpr fun f hf => decide_eq_true fun heq => hnew ?_
        exact List.mem_map.mpr ⟨f, hf, heq⟩
      have hdrop : (e :: map).length + 1 - maxKnownInfohashes =
          map.length + 1 - maxKnownInfohashes + 1 := by
        rw [List.length_cons] at hfull ⊢
        omega
      rw [if_pos hfull, hfilter, ih hrest, hdrop, List.drop_succ_cons]
    · have hdrop : (e :: map).length + 1 - maxKnownInfohashes = 0 := by omega
      rw [if_neg hfull, hdrop, List.drop_zero, List.map_cons]

/-- The value of a key is put at the end if the key is new. -/
theorem setEntry_new {infoHash : InfoHash} (h : infoHash ∉ map.map Prod.fst)
    (peers : List SocketAddr) : setEntry infoHash peers map = map ++ [(infoHash, peers)] := by
  induction map with
  | nil => rfl
  | cons e map ih =>
    rw [List.map_cons, List.mem_cons, not_or] at h
    rw [setEntry, if_neg (Ne.symm h.1), ih h.2, List.cons_append]

theorem keys_setEntry {infoHash : InfoHash} (h : infoHash ∈ map.map Prod.fst)
    (peers : List SocketAddr) : (setEntry infoHash peers map).map Prod.fst = map.map Prod.fst := by
  induction map with
  | nil => cases h
  | cons e map ih =>
    rw [setEntry]
    by_cases he : e.1 = infoHash
    · rw [if_pos he, List.map_cons, List.map_cons, he]
    · rw [if_neg he, List.map_cons, List.map_cons,
        ih ((List.mem_cons.mp h).resolve_left (Ne.symm he))]

theorem mem_setEntry {infoHash : InfoHash} (hnodup : (map.map Prod.fst).Nodup)
    {peers : List SocketAddr} {e : InfoHash × List SocketAddr}
    (h : e ∈ setEntry infoHash peers map) : e = (infoHash, peers) ∨ (e ∈ map ∧ e.1 ≠ infoHash) := by
  induction map with
  | nil => exact .inl (List.mem_singleton.mp h)
  | cons f map ih =>
    obtain ⟨hnew, hrest⟩ := List.nodup_cons.mp hnodup
    rw [setEntry] at h
    by_cases hf : f.1 = infoHash
    · rw [if_pos hf] at h
      refine (List.mem_cons.mp h).imp_right fun he => ⟨List.mem_cons_of_mem f he, fun heq => ?_⟩
      exact hnew (List.mem_map.mpr ⟨e, he, heq.trans hf.symm⟩)
    · rw [if_neg hf] at h
      rcases List.mem_cons.mp h with rfl | h
      · exact .inr ⟨List.mem_cons_self, hf⟩
      · exact (ih hrest h).imp_right fun hh => ⟨List.mem_cons_of_mem f hh.1, hh.2⟩

/-! ## The invariant -/

/-- **The store is bounded and exact**, with the hashes that were inserted and the announcements so
far. -/
structure Exact (inserted : List InfoHash) (announced : List Announcement) (k : KnownPeers) :
    Prop where
  /-- The queue has the keys of the map. -/
  keys : k.map.map Prod.fst = k.order
  nodup : k.order.Nodup
  /-- They are the last insertions, in their order. -/
  order : k.order = inserted.drop (inserted.length - maxKnownInfohashes)
  lists : ∀ e ∈ k.map, e.2.Nodup ∧ e.2.length ≤ maxPeersPerInfohash
  newest : ∀ e ∈ k.map, ∃ addr, latest announced e.1 = some addr ∧ addr ∈ e.2

variable {inserted : List InfoHash} {announced : List Announcement} {k : KnownPeers}

theorem exact_empty : Exact [] [] empty where
  keys := rfl
  nodup := List.nodup_nil
  order := rfl
  lists e he := by cases he
  newest e he := by cases he

theorem Exact.length_order (h : Exact inserted announced k) :
    k.order.length ≤ maxKnownInfohashes := by
  rw [h.order, List.length_drop]
  omega

/-- The list of a hash behind an announcement of it. -/
theorem list_ok {entry : List SocketAddr} (h : entry.Nodup) {addr : SocketAddr}
    (hnew : addr ∉ entry) :
    let kept := (entry ++ [addr]).drop ((entry ++ [addr]).length - maxPeersPerInfohash)
    kept.Nodup ∧ kept.length ≤ maxPeersPerInfohash ∧ addr ∈ kept := by
  have hmore : (entry ++ [addr]).Nodup := by
    refine List.nodup_append.mpr ⟨h, List.nodup_singleton _, fun a ha b hb => ?_⟩
    rintro rfl
    exact hnew (List.mem_singleton.mp hb ▸ ha)
  refine ⟨hmore.sublist (List.drop_sublist _ _), ?_, ?_⟩
  · rw [List.length_drop]
    omega
  · -- the new address is the last one, and some are kept
    have hkept : (entry ++ [addr]).length - maxPeersPerInfohash ≤ entry.length := by
      rw [List.length_append, List.length_singleton]
      unfold maxPeersPerInfohash
      omega
    rw [List.drop_append_of_le_length hkept]
    exact List.mem_append_right _ (List.mem_singleton.mpr rfl)

/-- **An announcement of a hash that is a key.** -/
theorem Exact.add_known (h : Exact inserted announced k) {a : Announcement}
    (hkey : (lookup a.1 k.map).isSome = true) :
    Exact inserted (announced ++ [a]) (k.add a.1 a.2) := by
  have hkeys : (k.map.map Prod.fst).Nodup := h.keys ▸ h.nodup
  obtain ⟨entry, hentry⟩ := Option.isSome_iff_exists.mp hkey
  have hmem : (a.1, entry) ∈ k.map := SortedMap.mem_of_lookup hentry
  have hnewest : ∀ e ∈ k.map, e.1 ≠ a.1 → ∃ addr, latest (announced ++ [a]) e.1 = some addr ∧
      addr ∈ e.2 := by
    intro e he hne
    rw [latest_append, if_neg (Ne.symm hne)]
    exact h.newest e he
  unfold add
  rw [if_pos hkey]
  dsimp only
  rw [hentry, Option.getD_some]
  by_cases hold : entry.contains a.2 = true
  · rw [if_pos hold]
    refine { h with newest := fun e he => ?_ }
    by_cases hne : e.1 = a.1
    · have hlist : e.2 = entry := by
        have hfind := (lookup_eq_some hkeys).mpr (show (e.1, e.2) ∈ k.map from he)
        rw [hne, hentry] at hfind
        exact (Option.some.inj hfind).symm
      rw [latest_append, if_pos hne.symm, hlist]
      exact ⟨a.2, rfl, List.contains_iff_mem.mp hold⟩
    · exact hnewest e he hne
  · rw [if_neg hold]
    have hnot : a.2 ∉ entry := fun hin => hold (List.contains_iff_mem.mpr hin)
    obtain ⟨hnodup, hlength, hin⟩ := list_ok (h.lists _ hmem).1 hnot
    have hsame := keys_setEntry (List.mem_map.mpr ⟨_, hmem, rfl⟩)
      ((entry ++ [a.2]).drop ((entry ++ [a.2]).length - maxPeersPerInfohash))
    refine ⟨hsame.trans h.keys, h.nodup, h.order, fun e he => ?_, fun e he => ?_⟩
    · rcases mem_setEntry hkeys he with rfl | ⟨he, -⟩
      · exact ⟨hnodup, hlength⟩
      · exact h.lists e he
    · rcases mem_setEntry hkeys he with rfl | ⟨he, hne⟩
      · rw [latest_append, if_pos rfl]
        exact ⟨a.2, rfl, hin⟩
      · exact hnewest e he hne

/-- **An announcement of a new hash.** -/
theorem Exact.add_new (h : Exact inserted announced k) {a : Announcement}
    (hnew : ¬ (lookup a.1 k.map).isSome = true) :
    Exact (inserted ++ [a.1]) (announced ++ [a]) (k.add a.1 a.2) := by
  have hkeys : (k.map.map Prod.fst).Nodup := h.keys ▸ h.nodup
  have habsent : a.1 ∉ k.map.map Prod.fst := fun hin => hnew (lookup_isSome_iff.mpr hin)
  have hlength : k.map.length = k.order.length := by rw [← h.keys, List.length_map]
  -- the map that is left when there is room
  have hroom := evict_eq hkeys
  rw [h.keys] at hroom
  generalize hleft : k.map.drop (k.map.length + 1 - maxKnownInfohashes) = left at hroom
  have hkept : ∀ e ∈ left, e ∈ k.map := fun e he => List.mem_of_mem_drop (hleft ▸ he)
  have hout : a.1 ∉ left.map Prod.fst := by
    intro hin
    obtain ⟨e, he, heq⟩ := List.mem_map.mp hin
    exact habsent (List.mem_map.mpr ⟨e, hkept e he, heq⟩)
  have hnone : lookup a.1 left = none :=
    Option.eq_none_iff_forall_not_mem.mpr fun v hv =>
      hout (lookup_isSome_iff.mp (Option.isSome_iff_exists.mpr ⟨v, hv⟩))
  have horder : left.map Prod.fst = k.order.drop (k.order.length + 1 - maxKnownInfohashes) := by
    rw [← hleft, List.map_drop, h.keys, hlength]
  have hadd : k.add a.1 a.2 =
      { map := left ++ [(a.1, [a.2])], order := left.map Prod.fst ++ [a.1] } := by
    unfold add
    rw [if_neg hnew]
    dsimp only
    rw [hroom]
    dsimp only
    rw [hnone, Option.getD_none, if_neg (by simp), setEntry_new hout]
    rfl
  rw [hadd]
  refine ⟨?_, ?_, ?_, fun e he => ?_, fun e he => ?_⟩
  · rw [List.map_append]
    rfl
  · have hsub : (left.map Prod.fst).Nodup := by
      rw [horder]
      exact h.nodup.sublist (List.drop_sublist _ _)
    refine List.nodup_append.mpr ⟨hsub, List.nodup_singleton _, fun x hx y hy => ?_⟩
    rintro rfl
    exact hout (List.mem_singleton.mp hy ▸ hx)
  · -- one more insertion, and at most one key less
    have hpos : 0 < maxKnownInfohashes := by decide
    show left.map Prod.fst ++ [a.1] = _
    rw [horder, h.order, List.drop_drop, List.length_drop, List.length_append,
      List.length_singleton, List.drop_append_of_le_length (by omega)]
    rw [show inserted.length - maxKnownInfohashes + (inserted.length -
        (inserted.length - maxKnownInfohashes) + 1 - maxKnownInfohashes) =
      inserted.length + 1 - maxKnownInfohashes by omega]
  · rcases List.mem_append.mp he with he | he
    · exact h.lists e (hkept e he)
    · rw [List.mem_singleton.mp he]
      have hone : 1 ≤ maxPeersPerInfohash := by decide
      exact ⟨List.nodup_singleton _, hone⟩
  · rcases List.mem_append.mp he with he | he
    · have hne : a.1 ≠ e.1 := fun heq => hout (List.mem_map.mpr ⟨e, he, heq.symm⟩)
      rw [latest_append, if_neg hne]
      exact h.newest e (hkept e he)
    · rw [List.mem_singleton.mp he, latest_append, if_pos rfl]
      exact ⟨a.2, rfl, List.mem_singleton.mpr rfl⟩

/-- **Every sequence of announcements.** -/
theorem Exact.addAll (h : Exact inserted announced k) (more : List Announcement) :
    Exact (inserted ++ k.insertions more) (announced ++ more) (k.addAll more) := by
  induction more generalizing inserted announced k with
  | nil =>
    rw [insertions, List.append_nil, List.append_nil]
    exact h
  | cons a more ih =>
    rw [insertions, ← List.append_assoc, List.append_cons]
    show Exact _ _ ((k.add a.1 a.2).addAll more)
    by_cases hkey : (lookup a.1 k.map).isSome = true
    · rw [if_pos hkey, List.append_nil]
      exact ih (h.add_known hkey)
    · rw [if_neg hkey]
      exact ih (h.add_new hkey)

/-- The hash of an announcement is a key behind it. -/
theorem Exact.mem_order_add (h : Exact inserted announced k) (a : Announcement) :
    a.1 ∈ (k.add a.1 a.2).order := by
  by_cases hkey : (lookup a.1 k.map).isSome = true
  · have hmem : a.1 ∈ k.order := h.keys ▸ lookup_isSome_iff.mp hkey
    unfold add
    rw [if_pos hkey]
    dsimp only
    split
    · exact hmem
    · exact hmem
  · have hpos : 0 < maxKnownInfohashes := by decide
    rw [(h.add_new hkey).order, List.length_append, List.length_singleton,
      List.drop_append_of_le_length (by omega)]
    exact List.mem_append_right _ (List.mem_singleton.mpr rfl)

theorem exact_addAll (announced : List Announcement) :
    Exact (empty.insertions announced) announced (empty.addAll announced) :=
  exact_empty.addAll announced

theorem addAll_append (k : KnownPeers) (announced more : List Announcement) :
    k.addAll (announced ++ more) = (k.addAll announced).addAll more := List.foldl_append

/-- **The peer store**, behind every sequence of announcements: its keys are bounded, the queue has
just these, the last ones that were inserted, in the order of their insertion; every list is bounded
and without repetition, and has the address that was announced last for its hash.  The address just
announced is there. -/
theorem store_exact (announced : List Announcement) :
    (empty.addAll announced).map.length ≤ maxKnownInfohashes ∧
      ((empty.addAll announced).map.map Prod.fst).Nodup ∧
      (empty.addAll announced).order.Nodup ∧
      (∀ infoHash, infoHash ∈ (empty.addAll announced).order ↔
        (lookup infoHash (empty.addAll announced).map).isSome = true) ∧
      (empty.addAll announced).order = (empty.insertions announced).drop
        ((empty.insertions announced).length - maxKnownInfohashes) ∧
      (∀ infoHash peers, lookup infoHash (empty.addAll announced).map = some peers →
        peers.Nodup ∧ peers.length ≤ maxPeersPerInfohash ∧
          ∃ addr, latest announced infoHash = some addr ∧ addr ∈ peers) ∧
      ∀ a, ∃ peers, lookup a.1 (empty.addAll (announced ++ [a])).map = some peers ∧
        a.2 ∈ peers := by
  have h := exact_addAll announced
  have hkeys : ((empty.addAll announced).map.map Prod.fst).Nodup := h.keys ▸ h.nodup
  refine ⟨?_, hkeys, h.nodup, fun infoHash => ?_, h.order, fun infoHash peers hlookup => ?_,
    fun a => ?_⟩
  · rw [← List.length_map, h.keys]
    exact h.length_order
  · rw [lookup_isSome_iff, h.keys]
  · have hmem := SortedMap.mem_of_lookup hlookup
    obtain ⟨hnodup, hlength⟩ := h.lists _ hmem
    exact ⟨hnodup, hlength, h.newest _ hmem⟩
  · have h' := exact_addAll (announced ++ [a])
    have hkey : a.1 ∈ (empty.addAll (announced ++ [a])).order := by
      rw [addAll_append]
      exact h.mem_order_add a
    rw [← h'.keys, ← lookup_isSome_iff] at hkey
    obtain ⟨peers, hpeers⟩ := Option.isSome_iff_exists.mp hkey
    obtain ⟨addr, hlatest, hin⟩ := h'.newest _ (SortedMap.mem_of_lookup hpeers)
    rw [latest_append, if_pos rfl] at hlatest
    exact ⟨peers, hpeers, Option.some.inj hlatest ▸ hin⟩

/-! ## A hash that is dropped -/

/-- Announcements of hashes that are all new insert each of them. -/
theorem Exact.insertions_new (h : Exact inserted announced k) {more : List Announcement}
    (hnodup : (more.map Prod.fst).Nodup) (hnew : ∀ a ∈ more, a.1 ∉ inserted) :
    k.insertions more = more.map Prod.fst := by
  induction more generalizing inserted announced k with
  | nil => rfl
  | cons a more ih =>
    obtain ⟨hfirst, hrest⟩ := List.nodup_cons.mp hnodup
    obtain ⟨hanew, hmnew⟩ := List.forall_mem_cons.mp hnew
    have hkey : ¬ (lookup a.1 k.map).isSome = true := by
      intro hkey
      have hin := lookup_isSome_iff.mp hkey
      rw [h.keys, h.order] at hin
      exact hanew (List.mem_of_mem_drop hin)
    rw [insertions, if_neg hkey, List.map_cons, List.singleton_append,
      ih (h.add_new hkey) hrest fun b hb => ?_]
    rw [List.mem_append, List.mem_singleton, not_or]
    exact ⟨hmnew b hb, fun heq => hfirst (List.mem_map.mpr ⟨b, hb, heq⟩)⟩

/-- A hash by its first two bytes. -/
def hashOf (i : Nat) : InfoHash :=
  ⟨UInt8.ofNat (i / 256) :: UInt8.ofNat i :: List.replicate 18 0, rfl⟩

theorem hashOf_inj {i j : Nat} (hi : i < 65536) (hj : j < 65536) (h : hashOf i = hashOf j) :
    i = j := by
  have hbytes := congrArg Octets.bytes h
  obtain ⟨hhigh, hrest⟩ := List.cons.inj hbytes
  obtain ⟨hlow, -⟩ := List.cons.inj hrest
  have hhigh := congrArg UInt8.toNat hhigh
  have hlow := congrArg UInt8.toNat hlow
  rw [UInt8.toNat_ofNat', UInt8.toNat_ofNat'] at hhigh hlow
  omega

/-- `10.0.0.1:6881`. -/
def announcer : SocketAddr := asker

/-- One address announces itself for as many hashes as there is room for, and one more. -/
def announceMany : List Announcement := (List.range 4097).map fun i => (hashOf i, announcer)

/-- **The first of too many hashes is dropped**, and its newest address with it. -/
theorem announceMany_drops :
    latest announceMany (hashOf 0) = some announcer ∧
      lookup (hashOf 0) (empty.addAll announceMany).map = none := by
  have hhashes : announceMany.map Prod.fst =
      hashOf 0 :: (List.range 4096).map fun i => hashOf (i + 1) := by
    rw [announceMany, List.map_map, List.range_succ_eq_map, List.map_cons, List.map_map]
    rfl
  have hnodup : (announceMany.map Prod.fst).Nodup := by
    rw [announceMany, List.map_map]
    refine List.Nodup.map_on (fun i hi j hj h => ?_) List.nodup_range
    rw [List.mem_range] at hi hj
    exact hashOf_inj (by omega) (by omega) h
  have h := exact_addAll announceMany
  have hinserted := exact_empty.insertions_new hnodup fun _ _ => List.not_mem_nil
  constructor
  · -- there is an announcement of the hash, and all are by the same address
    have hmem : (hashOf 0, announcer) ∈ announceMany.reverse :=
      List.mem_reverse.mpr (List.mem_map.mpr ⟨0, List.mem_range.mpr (by decide), rfl⟩)
    unfold latest
    cases hfind : announceMany.reverse.find? fun a => a.1 = hashOf 0 with
    | none => exact absurd (decide_eq_true rfl) (List.find?_eq_none.mp hfind _ hmem)
    | some a =>
      obtain ⟨i, -, rfl⟩ :=
        List.mem_map.mp (List.mem_reverse.mp (List.mem_of_find?_eq_some hfind))
      rfl
  · refine Option.eq_none_iff_forall_not_mem.mpr fun v hv => ?_
    have hin := lookup_isSome_iff.mp (Option.isSome_iff_exists.mpr ⟨v, hv⟩)
    have hlength : (announceMany.map Prod.fst).length - maxKnownInfohashes = 1 := by
      rw [hhashes, List.length_cons, List.length_map, List.length_range]
      rfl
    rw [h.keys, h.order, hinserted, hlength, hhashes, List.drop_succ_cons, List.drop_zero] at hin
    rw [hhashes] at hnodup
    exact (List.nodup_cons.mp hnodup).1 hin

end KnownPeers

/-! ## Every run of the node -/

/-- **In every run of the node** the store is the bounded one of announcements, of the handler's
tasks and of the node itself. -/
theorem knownPeers_run (sha1 : List UInt8 → List UInt8) {d : DhtNode}
    (hd : d.knownPeers = .empty) {s : System} {moves : List Move}
    (hrun : StepRun.run (System.step sha1) (System.start d) moves = some s) :
    ∃ announced, s.dht.knownPeers = KnownPeers.empty.addAll announced ∧
      s.dht.knownPeers.Exact (KnownPeers.empty.insertions announced) announced := by
  suffices ∃ announced, s.dht.knownPeers = KnownPeers.empty.addAll announced from
    this.imp fun announced h => ⟨h, h ▸ KnownPeers.exact_addAll announced⟩
  refine StepRun.run_invariant (P := fun _ _ => True)
    (I := fun s => ∃ announced, s.dht.knownPeers = KnownPeers.empty.addAll announced)
    (fun s move s' h _ hstep => ?_) ⟨[], hd⟩ (StepRun.along_of_forall fun _ _ => trivial) hrun
  obtain ⟨announced, hs⟩ := h
  have hadd : ∀ infoHash addr, ∃ more, s.dht.knownPeers.add infoHash addr =
      KnownPeers.empty.addAll more := by
    intro infoHash addr
    refine ⟨announced ++ [(infoHash, addr)], ?_⟩
    rw [KnownPeers.addAll_append, ← hs]
    rfl
  have hperform : ∀ task, ∃ more, (s.perform task).1.dht.knownPeers =
      KnownPeers.empty.addAll more := by
    intro task
    cases task with
    | addNode entry next => exact ⟨announced, hs⟩
    | readPeers infoHash next => exact ⟨announced, hs⟩
    | readTable next => exact ⟨announced, hs⟩
    | addKnownPeer infoHash addr next => exact hadd infoHash addr
    | send dst m next => exact ⟨announced, hs⟩
    | done => exact ⟨announced, hs⟩
  cases move with
  | packet data src =>
    obtain rfl := Option.some.inj hstep
    refine ⟨announced, ?_⟩
    unfold System.receive
    split
    · split
      · exact hs
      · exact hs
    · split
      · exact hs
      · exact hs
  | act i =>
    unfold System.step at hstep
    dsimp only at hstep
    split at hstep
    · cases hstep
    · cases hstep
      exact ⟨announced, hs⟩
    · rename_i task _ _
      cases hstep
      exact hperform task
  | ask tid q dst =>
    obtain rfl := Option.some.inj hstep
    exact ⟨announced, hs⟩
  | giveUp key =>
    obtain rfl := Option.some.inj hstep
    exact ⟨announced, hs⟩
  | collect i =>
    unfold System.step at hstep
    dsimp only at hstep
    split at hstep
    · cases hstep
    · cases hstep
      exact ⟨announced, hs⟩
  | learn entry =>
    obtain rfl := Option.some.inj hstep
    exact ⟨announced, hs⟩
  | forget id =>
    obtain rfl := Option.some.inj hstep
    exact ⟨announced, hs⟩
  | publish infoHash addr =>
    obtain rfl := Option.some.inj hstep
    exact hadd infoHash addr

/-- The store behind an announcement that came as a packet. -/
theorem foreignToken_store :
    ∃ (s : System) (announced : _), s.dht.knownPeers = KnownPeers.empty.addAll announced ∧
      s.dht.knownPeers.Exact (KnownPeers.empty.insertions announced) announced ∧
      .stored zeroId stranger ∈ s.log := by
  obtain ⟨s, hrun, hstored, -⟩ := foreignToken_run
  obtain ⟨announced, heq, hexact⟩ := knownPeers_run Sha1.digest rfl hrun
  exact ⟨s, announced, heq, hexact, hstored⟩

end XferRust.Dht
