import XferRust.Lib.SortedMap
import XferRust.Lib.StableSort
import XferRust.Dht.Compact

/-! # The routing table

160 buckets of at most `K` nodes, by the XOR distance to the own id, with candidates to take the
place of a node that has gone bad; and the file that it is kept in.  A bucket's time of change,
which nothing reads, is left out.
-/
namespace XferRust.Dht

/-- `K`. -/
def maxNodes : Nat := 8

/-! ## Distances -/

/-- `NodeId::xor`. -/
def NodeId.xor (a b : NodeId) : NodeId :=
  ⟨List.zipWith (· ^^^ ·) a.bytes b.bytes, by
    rw [List.length_zipWith, a.length_eq, b.length_eq, Nat.min_self]⟩

/-- `NodeId::leading_zero_bits`, for the bytes that are still to be looked at. -/
def leadingZeroBits : List UInt8 → Nat
  | [] => 0
  | b :: bytes => if b ≠ 0 then 7 - b.toNat.log2 else 8 + leadingZeroBits bytes

/-! ## Buckets -/

/-- `Bucket`. -/
structure Bucket where
  /-- The live nodes, the one seen last at the end. -/
  nodes : List NodeEntry
  /-- Candidates to take the place of a bad node. -/
  replacements : List NodeEntry
  deriving DecidableEq

namespace Bucket

/-- `Bucket::new`. -/
def new : Bucket := { nodes := [], replacements := [] }

/-- What `RoutingTable::add` does to the bucket of the entry. -/
def add (b : Bucket) (entry : NodeEntry) : Bucket :=
  match b.nodes.find? fun n => n.id = entry.id with
  | some node =>
    { b with
      nodes := (b.nodes.eraseP fun n => n.id = entry.id) ++ [{ node with addr := entry.addr }] }
  | none =>
    if maxNodes ≤ b.nodes.length then
      if b.replacements.any fun n => n.id = entry.id then b
      else
        let more := b.replacements ++ [entry]
        { b with replacements := if maxNodes * 2 < more.length then more.tail else more }
    else { b with nodes := b.nodes ++ [entry] }

/-- What `RoutingTable::mark_bad` does to the bucket of the id. -/
def markBad (b : Bucket) (id : NodeId) : Bucket :=
  if b.nodes.any fun n => n.id = id then
    let nodes := b.nodes.eraseP fun n => n.id = id
    match b.replacements with
    | rep :: replacements => { nodes := nodes ++ [rep], replacements }
    | [] => { b with nodes }
  else b

/-- The live nodes and the candidates. -/
def entries (b : Bucket) : List NodeEntry := b.nodes ++ b.replacements

/-- An addition brings in no node but the one that is added. -/
theorem id_of_mem_add {b : Bucket} {entry n : NodeEntry} (h : n ∈ (b.add entry).entries) :
    n.id = entry.id ∨ ∃ old ∈ b.entries, n.id = old.id := by
  have hkept {m : NodeEntry} (hm : m ∈ b.entries) :
      m.id = entry.id ∨ ∃ old ∈ b.entries, m.id = old.id := .inr ⟨m, hm, rfl⟩
  rw [add] at h
  split at h
  · rename_i node hnode
    rcases List.mem_append.mp h with h | h
    · rcases List.mem_append.mp h with h | h
      · exact hkept (List.mem_append_left _ (List.mem_of_mem_eraseP h))
      · obtain rfl := List.mem_singleton.mp h
        have hid := List.find?_some hnode
        exact .inl (of_decide_eq_true hid)
    · exact hkept (List.mem_append_right _ h)
  · split at h
    · split at h
      · exact hkept h
      · rcases List.mem_append.mp h with h | h
        · exact hkept (List.mem_append_left _ h)
        · have hmore : n ∈ b.replacements ++ [entry] := by
            dsimp only at h
            split at h
            · exact List.mem_of_mem_tail h
            · exact h
          rcases List.mem_append.mp hmore with h | h
          · exact hkept (List.mem_append_right _ h)
          · exact .inl (congrArg NodeEntry.id (List.mem_singleton.mp h))
    · rcases List.mem_append.mp h with h | h
      · rcases List.mem_append.mp h with h | h
        · exact hkept (List.mem_append_left _ h)
        · exact .inl (congrArg NodeEntry.id (List.mem_singleton.mp h))
      · exact hkept (List.mem_append_right _ h)

/-- Marking a node as bad brings in no node. -/
theorem mem_of_mem_markBad {b : Bucket} {id : NodeId} {n : NodeEntry}
    (h : n ∈ (b.markBad id).entries) : n ∈ b.entries := by
  rw [markBad] at h
  split at h
  · dsimp only at h
    split at h
    · rename_i rep replacements hreps
      rw [entries, hreps]
      rcases List.mem_append.mp h with h | h
      · rcases List.mem_append.mp h with h | h
        · exact List.mem_append_left _ (List.mem_of_mem_eraseP h)
        · exact List.mem_append_right _ (List.mem_singleton.mp h ▸ List.mem_cons_self)
      · exact List.mem_append_right _ (List.mem_cons_of_mem _ h)
    · rcases List.mem_append.mp h with h | h
      · exact List.mem_append_left _ (List.mem_of_mem_eraseP h)
      · exact List.mem_append_right _ h
  · exact h

end Bucket

/-! ## The table -/

/-- `RoutingTable`. -/
structure RoutingTable where
  ourId : NodeId
  buckets : Vector Bucket 160
  deriving DecidableEq

namespace RoutingTable

/-- `RoutingTable::new`. -/
def new (ourId : NodeId) : RoutingTable := { ourId, buckets := Vector.replicate 160 Bucket.new }

/-- `bucket_index`. -/
def bucketIndex (t : RoutingTable) (id : NodeId) : Fin 160 :=
  ⟨min (leadingZeroBits (t.ourId.xor id).bytes) 159,
    Nat.lt_of_le_of_lt (Nat.min_le_right _ _) (by decide)⟩

/-- The table with one bucket changed. -/
def modify (t : RoutingTable) (i : Fin 160) (f : Bucket → Bucket) : RoutingTable :=
  { t with buckets := t.buckets.set i (f (t.buckets.get i)) i.isLt }

/-- `add`. -/
def add (t : RoutingTable) (entry : NodeEntry) : RoutingTable :=
  if entry.id = t.ourId then t else t.modify (t.bucketIndex entry.id) (·.add entry)

/-- `mark_bad`. -/
def markBad (t : RoutingTable) (id : NodeId) : RoutingTable :=
  t.modify (t.bucketIndex id) (·.markBad id)

/-- `all_nodes`. -/
def allNodes (t : RoutingTable) : List NodeEntry := t.buckets.toList.flatMap Bucket.nodes

/-- `closest`: arrays of bytes are compared as the numbers that they write. -/
def closest (t : RoutingTable) (target : NodeId) (count : Nat) : List NodeEntry :=
  (StableSort.sortByKey (fun n => BigEndian.toNat (n.id.xor target).bytes) t.allNodes).take count

/-- The own id stands for no entry, live or candidate. -/
def SelfFree (t : RoutingTable) : Prop := ∀ b ∈ t.buckets, ∀ n ∈ b.entries, n.id ≠ t.ourId

@[simp] theorem ourId_add (t : RoutingTable) (entry : NodeEntry) :
    (t.add entry).ourId = t.ourId := by
  rw [add]
  split <;> rfl

@[simp] theorem ourId_markBad (t : RoutingTable) (id : NodeId) : (t.markBad id).ourId = t.ourId :=
  rfl

theorem selfFree_new (ourId : NodeId) : (new ourId).SelfFree := by
  intro b hb n hn
  rw [Vector.eq_of_mem_replicate hb] at hn
  cases hn

variable {t : RoutingTable}

theorem SelfFree.modify (h : t.SelfFree) {i : Fin 160} {f : Bucket → Bucket}
    (hf : ∀ n ∈ (f (t.buckets.get i)).entries, n.id ≠ t.ourId) : (t.modify i f).SelfFree := by
  intro b hb n hn
  rcases @Vector.mem_or_eq_of_mem_set _ _ t.buckets i _ _ i.isLt hb with hb | rfl
  · exact h b hb n hn
  · exact hf n hn

theorem SelfFree.add (h : t.SelfFree) (entry : NodeEntry) : (t.add entry).SelfFree := by
  rw [RoutingTable.add]
  split
  · exact h
  · rename_i hne
    refine h.modify fun n hn => ?_
    rcases Bucket.id_of_mem_add hn with heq | ⟨old, hold, heq⟩
    · rw [heq]
      exact hne
    · rw [heq]
      exact h _ (Vector.getElem_mem _) old hold

theorem SelfFree.markBad (h : t.SelfFree) (id : NodeId) : (t.markBad id).SelfFree :=
  h.modify fun n hn => h _ (Vector.getElem_mem _) n (Bucket.mem_of_mem_markBad hn)

theorem SelfFree.not_mem (h : t.SelfFree) {n : NodeEntry} (hn : n ∈ t.allNodes) :
    n.id ≠ t.ourId := by
  obtain ⟨b, hb, hn⟩ := List.mem_flatMap.mp hn
  exact h b (Vector.mem_toList_iff.mp hb) n (List.mem_append_left _ hn)

end RoutingTable

/-! ## The file -/

/-- A JSON value, as `serde_json` has it. -/
inductive Json where
  | null
  | bool (b : Bool)
  | number (text : String)
  | str (s : String)
  | arr (items : List Json)
  | obj (fields : List (String × Json))

namespace Json

/-- The member of an object; `null` where there is none. -/
def member (key : String) : Json → Json
  | obj fields => (SortedMap.lookup key fields).getD null
  | _ => null

def asStr : Json → Option String
  | str s => some s
  | _ => none

def asArray : Json → Option (List Json)
  | arr items => some items
  | _ => none

end Json

/-- The readers of texts that other crates bring along. -/
structure Readers where
  /-- `serde_json::from_str`. -/
  parseJson : String → Option Json
  /-- `hex::decode`. -/
  hexDecode : String → Option (List UInt8)
  /-- `SocketAddr::from_str`. -/
  parseAddr : String → Option SocketAddr

section
variable (readers : Readers)

/-- `NodeId::from_hex`. -/
def NodeId.fromHex (s : String) : Option NodeId := do
  let v ← readers.hexDecode s
  if v.length ≠ 20 then none else some (.ofSlice 20 v)

namespace RoutingTable

/-- One node of `from_json`. -/
def addJson (t : RoutingTable) (n : Json) : Option RoutingTable := do
  let idHex ← (n.member "id").asStr
  let addrText ← (n.member "addr").asStr
  let id ← NodeId.fromHex readers idHex
  let addr ← readers.parseAddr addrText
  some (t.add { id, addr })

/-- `from_json`. -/
def fromJson (v : Json) : Option RoutingTable := do
  let ourHex ← (v.member "our_id").asStr
  let ourId ← NodeId.fromHex readers ourHex
  match (v.member "nodes").asArray with
  | some arr => arr.foldlM (addJson readers) (new ourId)
  | none => some (new ourId)

/-- `load_routing_table`, for the text of the file where it can be read. -/
def load (text : Option String) : Option RoutingTable := do
  let text ← text
  let v ← readers.parseJson text
  fromJson readers v

/-- What additions keep holds of a table that entries are read into. -/
theorem foldlM_addJson {P : RoutingTable → Prop}
    (hadd : ∀ t : RoutingTable, P t → ∀ entry, P (t.add entry)) {arr : List Json}
    {t u : RoutingTable} (ht : P t) (h : arr.foldlM (addJson readers) t = some u) : P u := by
  induction arr generalizing t with
  | nil => exact Option.some.inj h ▸ ht
  | cons n arr ih =>
    rw [List.foldlM_cons] at h
    obtain ⟨t', ht', h⟩ := Option.bind_eq_some_iff.mp h
    obtain ⟨idHex, -, ht'⟩ := Option.bind_eq_some_iff.mp ht'
    obtain ⟨addrText, -, ht'⟩ := Option.bind_eq_some_iff.mp ht'
    obtain ⟨id, -, ht'⟩ := Option.bind_eq_some_iff.mp ht'
    obtain ⟨addr, -, ht'⟩ := Option.bind_eq_some_iff.mp ht'
    exact ih (Option.some.inj ht' ▸ hadd t ht _) h

/-- A loaded table is free of the id that the file gives for its own. -/
theorem selfFree_of_load {text : Option String} {t : RoutingTable}
    (h : load readers text = some t) : t.SelfFree := by
  obtain ⟨text, -, h⟩ := Option.bind_eq_some_iff.mp h
  obtain ⟨v, -, h⟩ := Option.bind_eq_some_iff.mp h
  obtain ⟨ourHex, -, h⟩ := Option.bind_eq_some_iff.mp h
  obtain ⟨ourId, -, h⟩ := Option.bind_eq_some_iff.mp h
  split at h
  · exact foldlM_addJson readers (fun _ h => h.add) (selfFree_new ourId) h
  · exact Option.some.inj h ▸ selfFree_new ourId

end RoutingTable

end

end XferRust.Dht
