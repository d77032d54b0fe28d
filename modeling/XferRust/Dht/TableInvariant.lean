import XferRust.Lib.Hex
import XferRust.Lib.StepRun
import XferRust.Dht.RoutingTable

/-! # What holds of the routing table

A bucket has candidates only while it is full: a node that goes bad is replaced at once as long as
there are some, and a node is put in directly only where there are none.  So a candidate is never
live as well, and its way into the bucket leads out of the candidates (`Bucket.Sound`).  With each
entry in the bucket of its distance, no id is in the table twice (`RoutingTable.Sound`).
-/
namespace XferRust.Dht

open StepRun

namespace Bucket

variable {b : Bucket} {entry : NodeEntry} {id : NodeId}

/-- The ids of a list of entries. -/
def idsOf (l : List NodeEntry) : List NodeId := l.map NodeEntry.id

/-- **What holds of a bucket.** -/
structure Sound (b : Bucket) : Prop where
  nodes : b.nodes.length ≤ maxNodes
  replacements : b.replacements.length ≤ maxNodes * 2
  distinct : (idsOf b.entries).Nodup
  /-- There are candidates only in a full bucket. -/
  full : b.replacements ≠ [] → b.nodes.length = maxNodes

theorem sound_new : new.Sound where
  nodes := Nat.zero_le _
  replacements := Nat.zero_le _
  distinct := List.nodup_nil
  full h := absurd rfl h

theorem idsOf_append (l l' : List NodeEntry) : idsOf (l ++ l') = idsOf l ++ idsOf l' :=
  List.map_append

theorem mem_idsOf {l : List NodeEntry} : id ∈ idsOf l ↔ ∃ n ∈ l, n.id = id := List.mem_map

/-- The list without the entry of an id, and what it was before. -/
theorem eraseP_split {l : List NodeEntry} (h : id ∈ idsOf l) :
    ∃ n l₁ l₂, n.id = id ∧ l = l₁ ++ n :: l₂ ∧
      (l.eraseP fun n => n.id = id) = l₁ ++ l₂ := by
  obtain ⟨n, hn, hid⟩ := mem_idsOf.mp h
  obtain ⟨m, l₁, l₂, -, hm, heq, herase⟩ :=
    @List.exists_of_eraseP _ (fun n : NodeEntry => n.id = id) l n hn (decide_eq_true hid)
  exact ⟨m, l₁, l₂, of_decide_eq_true hm, heq, herase⟩

theorem Sound.add (h : b.Sound) (entry : NodeEntry) : (b.add entry).Sound := by
  unfold Bucket.add
  cases hfind : b.nodes.find? fun n => n.id = entry.id with
  | some node =>
    have hsome := List.find?_some hfind
    have hid : node.id = entry.id := of_decide_eq_true hsome
    obtain ⟨m, l₁, l₂, hm, hnodes, herase⟩ := eraseP_split
      (mem_idsOf.mpr ⟨node, List.mem_of_find?_eq_some hfind, hid⟩)
    have hlen : ((b.nodes.eraseP fun n : NodeEntry => n.id = entry.id) ++
        [{ node with addr := entry.addr }]).length = b.nodes.length := by
      rw [herase, hnodes]
      simp only [List.length_append, List.length_cons, List.length_nil]
      omega
    refine ⟨hlen ▸ h.nodes, h.replacements, ?_, fun hr => hlen.trans (h.full hr)⟩
    -- the entry has moved to the end
    have hdistinct := h.distinct
    rw [entries, idsOf_append, hnodes, idsOf_append] at hdistinct
    rw [entries, idsOf_append, herase, idsOf_append, idsOf_append]
    have hmoved : (idsOf l₁ ++ idsOf l₂ ++ idsOf [{ node with addr := entry.addr }]).Perm
        (idsOf l₁ ++ idsOf (m :: l₂)) := by
      show (idsOf l₁ ++ idsOf l₂ ++ [node.id]).Perm (idsOf l₁ ++ m.id :: idsOf l₂)
      rw [hid, ← hm, List.append_assoc]
      exact List.Perm.append_left _ (List.perm_append_singleton _ _)
    exact (hmoved.append_right _).nodup_iff.mpr hdistinct
  | none =>
    have hnew : entry.id ∉ idsOf b.nodes := by
      intro hmem
      obtain ⟨n, hn, hid⟩ := mem_idsOf.mp hmem
      exact List.find?_eq_none.mp hfind n hn (decide_eq_true hid)
    have hdistinct := h.distinct
    rw [entries, idsOf_append] at hdistinct
    dsimp only
    split
    · next hfull =>
      split
      · exact h
      · next hany =>
        have hcand : entry.id ∉ idsOf b.replacements := by
          intro hmem
          obtain ⟨n, hn, hid⟩ := mem_idsOf.mp hmem
          exact hany (List.any_eq_true.mpr ⟨n, hn, decide_eq_true hid⟩)
        have hlen : (b.replacements ++ [entry]).length = b.replacements.length + 1 :=
          List.length_append
        have hmore : (idsOf b.nodes ++ idsOf (b.replacements ++ [entry])).Nodup := by
          rw [idsOf_append, ← List.append_assoc]
          refine List.nodup_append.mpr ⟨hdistinct, List.nodup_singleton _, ?_⟩
          rintro x hx y hy rfl
          rw [show idsOf [entry] = [entry.id] from rfl, List.mem_singleton] at hy
          subst hy
          exact (List.mem_append.mp hx).elim hnew hcand
        refine ⟨h.nodes, ?_, ?_, fun _ => Nat.le_antisymm h.nodes hfull⟩
        · have hrep := h.replacements
          dsimp only
          split
          · rw [List.length_tail]
            omega
          · omega
        · rw [entries, idsOf_append]
          dsimp only
          split
          · have htail : (idsOf (b.replacements ++ [entry]).tail).Sublist
                (idsOf (b.replacements ++ [entry])) := (List.tail_sublist _).map _
            exact hmore.sublist (htail.append_left _)
          · exact hmore
    · next hroom =>
      have hnil : b.replacements = [] := by
        by_contra hne
        exact hroom (Nat.le_of_eq (h.full hne).symm)
      rw [hnil] at hdistinct
      refine ⟨?_, h.replacements, ?_, fun hne => absurd hnil hne⟩
      · rw [List.length_append, List.length_singleton]
        omega
      · rw [entries, idsOf_append, idsOf_append, hnil]
        refine (List.nodup_append.mpr ⟨?_, List.nodup_nil, fun x _ y hy => by cases hy⟩)
        refine List.nodup_append.mpr ⟨hdistinct.of_append_left, List.nodup_singleton _, ?_⟩
        rintro x hx y hy rfl
        rw [show idsOf [entry] = [entry.id] from rfl, List.mem_singleton] at hy
        exact hnew (hy ▸ hx)

theorem Sound.markBad (h : b.Sound) (id : NodeId) : (b.markBad id).Sound := by
  unfold Bucket.markBad
  split
  · next hany =>
    obtain ⟨n, hn, hid⟩ := List.any_eq_true.mp hany
    obtain ⟨m, l₁, l₂, -, hnodes, herase⟩ := eraseP_split
      (mem_idsOf.mpr ⟨n, hn, of_decide_eq_true hid⟩)
    have hdistinct := h.distinct
    rw [entries, hnodes] at hdistinct
    have hnodesLen := h.nodes
    have hlen := congrArg List.length hnodes
    rw [List.length_append, List.length_cons] at hlen
    dsimp only
    rw [herase]
    split
    · next rep reps hreps =>
      rw [hreps] at hdistinct
      have hfull := h.full (hreps ▸ List.cons_ne_nil _ _)
      have hsub : ((l₁ ++ l₂ ++ [rep]) ++ reps).Sublist (l₁ ++ m :: l₂ ++ rep :: reps) := by
        rw [List.append_assoc _ [rep], List.singleton_append]
        exact ((List.sublist_cons_self m l₂).append_left l₁).append_right _
      refine ⟨?_, ?_, hdistinct.sublist (hsub.map _), fun _ => ?_⟩
      · rw [List.length_append, List.length_append, List.length_singleton]
        omega
      · have hrep := h.replacements
        rw [hreps, List.length_cons] at hrep
        exact Nat.le_of_succ_le hrep
      · rw [List.length_append, List.length_append, List.length_singleton]
        omega
    · next hreps =>
      have hsub : ((l₁ ++ l₂) ++ b.replacements).Sublist (l₁ ++ m :: l₂ ++ b.replacements) :=
        ((List.sublist_cons_self m l₂).append_left l₁).append_right _
      refine ⟨?_, h.replacements, hdistinct.sublist (hsub.map _), fun hne => absurd hreps hne⟩
      rw [List.length_append]
      omega
  · exact h

end Bucket

namespace RoutingTable

variable {t : RoutingTable}

/-- **What holds of the table.** -/
structure Sound (t : RoutingTable) : Prop where
  bucket : ∀ i : Fin 160, (t.buckets.get i).Sound
  placed : ∀ i : Fin 160, ∀ n ∈ (t.buckets.get i).entries, t.bucketIndex n.id = i
  selfFree : t.SelfFree

theorem get_modify (t : RoutingTable) (i j : Fin 160) (f : Bucket → Bucket) :
    (t.modify i f).buckets.get j = if i = j then f (t.buckets.get i) else t.buckets.get j := by
  show (t.buckets.set i (f (t.buckets.get i)) i.isLt)[j.val] = _
  rw [Vector.getElem_set]
  by_cases h : i = j
  · rw [if_pos h, if_pos (congrArg Fin.val h)]
  · rw [if_neg h, if_neg (mt Fin.eq_of_val_eq h)]
    rfl

theorem sound_new (ourId : NodeId) : (new ourId).Sound where
  bucket i := by
    rw [show (new ourId).buckets.get i = Bucket.new from Vector.getElem_replicate _]
    exact Bucket.sound_new
  placed i n hn := by
    rw [show (new ourId).buckets.get i = Bucket.new from Vector.getElem_replicate _] at hn
    cases hn
  selfFree := selfFree_new ourId

/-- A change of one bucket that brings in no entry of another one. -/
theorem Sound.modify (h : t.Sound) {i : Fin 160} {f : Bucket → Bucket}
    (hsound : (f (t.buckets.get i)).Sound)
    (hplaced : ∀ n ∈ (f (t.buckets.get i)).entries, t.bucketIndex n.id = i)
    (hfree : (t.modify i f).SelfFree) : (t.modify i f).Sound where
  bucket j := by
    rw [get_modify]
    split
    · exact hsound
    · exact h.bucket j
  placed j n hn := by
    rw [get_modify] at hn
    split at hn
    · next hij => exact hij ▸ hplaced n hn
    · exact h.placed j n hn
  selfFree := hfree

theorem Sound.add (h : t.Sound) (entry : NodeEntry) : (t.add entry).Sound := by
  have hfree := h.selfFree.add entry
  rw [RoutingTable.add] at hfree ⊢
  split at hfree
  · next hself =>
    rw [if_pos hself]
    exact h
  · next hself =>
    rw [if_neg hself]
    refine h.modify ((h.bucket _).add entry) (fun n hn => ?_) hfree
    obtain hid | ⟨old, hold, hid⟩ := Bucket.id_of_mem_add hn
    · rw [hid]
    · rw [hid]
      exact h.placed _ old hold

theorem Sound.markBad (h : t.Sound) (id : NodeId) : (t.markBad id).Sound :=
  h.modify ((h.bucket _).markBad id)
    (fun n hn => h.placed _ n (Bucket.mem_of_mem_markBad hn)) (h.selfFree.markBad id)

/-- A table that is read from JSON, whatever it says. -/
theorem sound_fromJson {readers : Readers} {v : Json} (h : fromJson readers v = some t) :
    t.Sound := by
  obtain ⟨ourHex, -, h⟩ := Option.bind_eq_some_iff.mp h
  obtain ⟨ourId, -, h⟩ := Option.bind_eq_some_iff.mp h
  split at h
  · exact foldlM_addJson readers (fun _ h => h.add) (sound_new ourId) h
  · exact Option.some.inj h ▸ sound_new ourId

/-- **The table as its callers see it.** -/
structure WellKept (t : RoutingTable) : Prop where
  /-- Every entry is in the bucket of its distance. -/
  placed : ∀ i : Fin 160, ∀ n ∈ (t.buckets.get i).entries, t.bucketIndex n.id = i
  /-- No id is live twice. -/
  distinct : (t.allNodes.map NodeEntry.id).Nodup
  /-- No id is live and a candidate. -/
  apart : ∀ i : Fin 160, ∀ n ∈ (t.buckets.get i).nodes, ∀ r ∈ (t.buckets.get i).replacements,
    n.id ≠ r.id
  nodes : ∀ i : Fin 160, (t.buckets.get i).nodes.length ≤ maxNodes
  replacements : ∀ i : Fin 160, (t.buckets.get i).replacements.length ≤ maxNodes * 2
  selfFree : ∀ i : Fin 160, ∀ n ∈ (t.buckets.get i).entries, n.id ≠ t.ourId

/-- The buckets one after the other. -/
theorem toList_buckets (t : RoutingTable) :
    t.buckets.toList = (List.finRange 160).map t.buckets.get := by
  refine List.ext_getElem (by simp) fun i h₁ h₂ => ?_
  simp [Vector.get]

theorem Sound.distinct (h : t.Sound) : (t.allNodes.map NodeEntry.id).Nodup := by
  rw [allNodes, toList_buckets, List.flatMap_map, List.map_flatMap]
  refine List.nodup_flatMap.mpr ⟨fun i _ => ?_, ?_⟩
  · have hdistinct := (h.bucket i).distinct
    rw [Bucket.entries, Bucket.idsOf_append] at hdistinct
    exact hdistinct.of_append_left
  · refine (List.nodup_finRange 160).imp fun {i j} hne id hi hj => hne ?_
    obtain ⟨n, hn, rfl⟩ := List.mem_map.mp hi
    obtain ⟨m, hm, hid⟩ := List.mem_map.mp hj
    rw [← h.placed i n (List.mem_append_left _ hn), ← h.placed j m (List.mem_append_left _ hm),
      hid]

theorem Sound.wellKept (h : t.Sound) : t.WellKept where
  placed := h.placed
  distinct := h.distinct
  apart i n hn r hr heq := by
    have hdistinct := (h.bucket i).distinct
    rw [Bucket.entries, Bucket.idsOf_append] at hdistinct
    exact (List.nodup_append.mp hdistinct).2.2 _ (List.mem_map_of_mem hn) _
      (List.mem_map_of_mem hr) heq
  nodes i := (h.bucket i).nodes
  replacements i := (h.bucket i).replacements
  selfFree i n hn := h.selfFree _ (Vector.getElem_mem _) n hn

/-- The distance of an id from a target, as a number. -/
def distance (target : NodeId) (n : NodeEntry) : Nat := BigEndian.toNat (n.id.xor target).bytes

/-- **The nodes closest to a target**: as many as there are of those asked for, in the order of
their distance, and no other one is closer. -/
structure Closest (t : RoutingTable) (target : NodeId) (count : Nat) (l : List NodeEntry) :
    Prop where
  length : l.length = min count t.allNodes.length
  ascending : l.Pairwise fun a b => distance target a ≤ distance target b
  nearest : ∃ others, (l ++ others).Perm t.allNodes ∧
    ∀ a ∈ l, ∀ b ∈ others, distance target a ≤ distance target b

theorem closest_spec (t : RoutingTable) (target : NodeId) (count : Nat) :
    t.Closest target count (t.closest target count) := by
  have hperm := StableSort.sortByKey_perm (distance target) t.allNodes
  have hsorted := StableSort.sortByKey_sorted (distance target) t.allNodes
  refine ⟨?_, hsorted.sublist (List.take_sublist count _),
    (StableSort.sortByKey (distance target) t.allNodes).drop count, ?_, ?_⟩
  · rw [closest, List.length_take, ← hperm.length_eq]
    rfl
  · exact (List.take_append_drop count _).symm ▸ hperm
  · intro a ha b hb
    have hsplit := hsorted
    rw [← List.take_append_drop count (StableSort.sortByKey (distance target) t.allNodes)] at hsplit
    exact (List.pairwise_append.mp hsplit).2.2 a ha b hb

/-! ## Runs -/

inductive TableEvent
  | add (entry : NodeEntry)
  | markBad (id : NodeId)
  /-- The table is dropped, and read from JSON. -/
  | reload (v : Json)

def step (readers : Readers) (t : RoutingTable) : TableEvent → Option RoutingTable
  | .add entry => some (t.add entry)
  | .markBad id => some (t.markBad id)
  | .reload v => fromJson readers v

theorem Sound.step {readers : Readers} {e : TableEvent} {u : RoutingTable} (h : t.Sound)
    (hs : t.step readers e = some u) : u.Sound := by
  cases e with
  | add entry => exact Option.some.inj hs ▸ h.add entry
  | markBad id => exact Option.some.inj hs ▸ h.markBad id
  | reload v => exact sound_fromJson hs

/-- **The routing table keeps its order** over every run, and its answers are the closest nodes. -/
theorem wellKept_of_run (readers : Readers) (ourId : NodeId) (es : List TableEvent)
    (t : RoutingTable) (hrun : run (step readers) (new ourId) es = some t) :
    t.WellKept ∧ ∀ target count, t.Closest target count (t.closest target count) := by
  have hsound : t.Sound :=
    run_invariant (fun _ _ _ ht (_ : True) hs => ht.step hs) (sound_new ourId)
      (along_of_forall fun _ _ => trivial) hrun
  exact ⟨hsound.wellKept, t.closest_spec⟩

def loopback (port : UInt16) : SocketAddr := .v4 fallbackIp port

def savedTableReaders : Readers where
  parseJson _ := none
  hexDecode := Hex.decode
  parseAddr text := if text = "127.0.0.1:6881" then some (loopback 6881) else none

/-- What is written of a table with one node. -/
def savedTable : Json :=
  .obj [("our_id", .str "0202020202020202020202020202020202020202"),
    ("nodes", .arr [.obj [("id", .str "0303030303030303030303030303030303030303"),
      ("addr", .str "127.0.0.1:6881")]])]

def nodeOf (b : UInt8) : NodeEntry := { id := ⟨List.replicate 20 b, rfl⟩, addr := loopback 6881 }

/-- Nine nodes at one distance, one of them twice, and one that goes bad; then the file. -/
def tableRun : List TableEvent :=
  [128, 129, 130, 131, 132, 133, 134, 135, 136, 128].map (fun b => .add (nodeOf b)) ++
    [.markBad (nodeOf 129).id, .reload savedTable, .add (nodeOf 4)]

theorem tableRun_wellKept :
    ∃ t, run (step savedTableReaders) (new (nodeOf 0).id) tableRun = some t ∧
      t.allNodes = [nodeOf 4, nodeOf 3] ∧ t.WellKept ∧
      ∀ target count, t.Closest target count (t.closest target count) := by
  have hrun : ((run (step savedTableReaders) (new (nodeOf 0).id) tableRun).any fun t =>
      decide (t.allNodes = [nodeOf 4, nodeOf 3])) = true := by decide +kernel
  obtain ⟨t, ht, hnodes⟩ := (Option.any_eq_true _ _).mp hrun
  exact ⟨t, ht, of_decide_eq_true hnodes, wellKept_of_run savedTableReaders _ tableRun t ht⟩

end RoutingTable

end XferRust.Dht
