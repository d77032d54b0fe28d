import XferRust.Dht.Tokens

/-! # One identity

The node says who it is by `our_id`; the routing table keeps an id of its own, by which it places
the entries and leaves itself out.  The two agree for good when they agree at the start, and a
table from a file brings its own id along.
-/
namespace XferRust.Dht

variable {sha1 : List UInt8 → List UInt8}

/-- What a step does to the table. -/
theorem table_step {s s' : System} {m : Move} (hstep : s.step sha1 m = some s') :
    s'.dht.table = s.dht.table ∨ (∃ entry, s'.dht.table = s.dht.table.add entry) ∨
      ∃ id, s'.dht.table = s.dht.table.markBad id := by
  cases m with
  | packet data src =>
    obtain rfl := Option.some.inj hstep
    refine .inl ?_
    rw [System.receive]
    split
    · split <;> rfl
    · split <;> rfl
  | act i =>
    rw [System.step] at hstep
    split at hstep
    · cases hstep
    · obtain rfl := Option.some.inj hstep
      exact .inl rfl
    · rename_i task _ _
      obtain rfl := Option.some.inj hstep
      cases task with
      | addNode entry next => exact .inr (.inl ⟨entry, rfl⟩)
      | readPeers infoHash next => exact .inl rfl
      | readTable next => exact .inl rfl
      | addKnownPeer infoHash addr next => exact .inl rfl
      | send dst m next => exact .inl rfl
      | done => exact .inl rfl
  | ask tid q dst => exact Option.some.inj hstep ▸ .inl rfl
  | giveUp key => exact Option.some.inj hstep ▸ .inl rfl
  | collect i =>
    rw [System.step] at hstep
    split at hstep
    · cases hstep
    · obtain rfl := Option.some.inj hstep
      dsimp only
      split
      · exact .inr (.inl ⟨_, rfl⟩)
      · exact .inl rfl
  | learn entry => exact Option.some.inj hstep ▸ .inr (.inl ⟨entry, rfl⟩)
  | forget id => exact Option.some.inj hstep ▸ .inr (.inr ⟨id, rfl⟩)
  | publish infoHash addr => exact Option.some.inj hstep ▸ .inl rfl

/-- The table keeps its own id, which stands for none of its entries. -/
structure TableSound (id : NodeId) (s : System) : Prop where
  ourId : s.dht.table.ourId = id
  selfFree : s.dht.table.SelfFree

theorem TableSound.step {id : NodeId} {s s' : System} (h : TableSound id s) {m : Move}
    (hstep : s.step sha1 m = some s') : TableSound id s' := by
  rcases table_step hstep with heq | ⟨entry, heq⟩ | ⟨bad, heq⟩
  · exact ⟨heq ▸ h.ourId, heq ▸ h.selfFree⟩
  · exact ⟨by rw [heq, RoutingTable.ourId_add, h.ourId], heq ▸ h.selfFree.add entry⟩
  · exact ⟨by rw [heq, RoutingTable.ourId_markBad, h.ourId], heq ▸ h.selfFree.markBad bad⟩

theorem tableSound_run {id : NodeId} {s t : System} {moves : List Move} (h : TableSound id s)
    (hrun : StepRun.run (System.step sha1) s moves = some t) : TableSound id t :=
  StepRun.run_invariant (P := fun _ _ => True) (fun _ _ _ hs _ hstep => hs.step hstep) h
    (StepRun.along_of_forall fun _ _ => trivial) hrun

/-! ## The identity of a new node -/

variable {readers : Readers} {given : DhtNode.Given} {d : DhtNode}

/-- The node and its table know it by one id, which is the one that it sends, and which stands for
no entry of the table. -/
structure OneIdentity (s : System) : Prop where
  table : s.dht.table.ourId = s.dht.ourId
  sent : ∀ dst m id, .sent dst m ∈ s.log → m.senderId = some id → id = s.dht.table.ourId
  noEntry : ∀ n ∈ s.dht.table.allNodes, n.id ≠ s.dht.ourId

theorem new_ok (h : DhtNode.new readers given = .ok d) :
    d.ourId = given.nodeId.getD given.random ∧
      d.table = (given.loaded readers).getD (.new (given.nodeId.getD given.random)) := by
  obtain ⟨localAddr, -, h⟩ := Bencode.except_bind_ok.mp h
  obtain rfl := Except.ok.inj h
  exact ⟨rfl, rfl⟩

theorem tableSound_new (h : DhtNode.new readers given = .ok d) :
    TableSound d.table.ourId (System.start d) := by
  refine ⟨rfl, ?_⟩
  show d.table.SelfFree
  rw [(new_ok h).2]
  cases hloaded : given.loaded readers with
  | none => exact RoutingTable.selfFree_new _
  | some t =>
    obtain ⟨text, -, htext⟩ := Option.bind_eq_some_iff.mp hloaded
    exact RoutingTable.selfFree_of_load readers htext

/-- **When a node keeps one identity**: in every state of every run, exactly when no table is
loaded from a file, or one that was written under the same id. -/
theorem oneIdentity_iff (sha1 : List UInt8 → List UInt8) (readers : Readers)
    (given : DhtNode.Given) {d : DhtNode} (hnew : DhtNode.new readers given = .ok d) :
    (∀ moves s, StepRun.run (System.step sha1) (System.start d) moves = some s → OneIdentity s) ↔
      ∀ t, given.loaded readers = some t → t.ourId = given.nodeId.getD given.random := by
  obtain ⟨hid, htable⟩ := new_ok hnew
  constructor
  · intro h t ht
    have hstart := (h [] _ rfl).table
    change d.table.ourId = d.ourId at hstart
    rwa [htable, ht, hid] at hstart
  · intro h moves s hrun
    have hagree : d.table.ourId = d.ourId := by
      rw [htable, hid]
      cases hloaded : given.loaded readers with
      | none => rfl
      | some t => exact h t hloaded
    have hsound := sound_run hrun
    have htab := tableSound_run (tableSound_new hnew) hrun
    have hours : s.dht.table.ourId = s.dht.ourId :=
      htab.ourId.trans (hagree.trans hsound.same.ourId.symm)
    refine ⟨hours, fun dst m id hmem hm => ?_, fun n hn => ?_⟩
    · exact ((hsound.sent dst m hmem).sender id hm).trans (hagree.symm.trans htab.ourId.symm)
    · exact hours ▸ htab.selfFree.not_mem hn

/-! ## A table from an older node -/

/-- The value of a hexadecimal digit. -/
def hexDigit (c : Char) : Option UInt8 :=
  if '0' ≤ c ∧ c ≤ '9' then some (UInt8.ofNat (c.toNat - 48))
  else if 'a' ≤ c ∧ c ≤ 'f' then some (UInt8.ofNat (c.toNat - 87))
  else none

def hexBytes : List Char → Option (List UInt8)
  | [] => some []
  | [_] => none
  | high :: low :: rest => do
    let h ← hexDigit high
    let l ← hexDigit low
    let bytes ← hexBytes rest
    some ((h * 16 + l) :: bytes)

/-- What `to_json` writes for an empty table of the node `0202…02`. -/
def savedText : String :=
  "\x7b\"our_id\":\"0202020202020202020202020202020202020202\",\"nodes\":[]\x7d"

def savedJson : Json :=
  .obj [("our_id", .str "0202020202020202020202020202020202020202"), ("nodes", .arr [])]

def savedReaders : Readers where
  parseJson text := if text = savedText then some savedJson else none
  hexDecode s := hexBytes s.toList
  parseAddr _ := none

/-- A start with that file, and with the id that the configuration gives. -/
def startWith (id : NodeId) : DhtNode.Given where
  nodeId := some id
  random := zeroId
  salt := .ofSlice 8 []
  file := some (some savedText)
  enableIpv6 := false
  bound := .ok stranger

def savedId : NodeId := ⟨List.replicate 20 2, rfl⟩

theorem loaded_startWith (id : NodeId) :
    (startWith id).loaded savedReaders = some (RoutingTable.new savedId) := by
  show RoutingTable.load savedReaders (some savedText) = some (RoutingTable.new savedId)
  decide +kernel

/-- The node that wrote the file keeps its identity. -/
theorem savedNode_oneIdentity :
    ∃ d, DhtNode.new savedReaders (startWith savedId) = .ok d ∧
      ∀ moves s, StepRun.run (System.step Sha1.digest) (System.start d) moves = some s →
        OneIdentity s :=
  ⟨_, rfl, (oneIdentity_iff Sha1.digest savedReaders (startWith savedId) rfl).mpr fun t ht => by
    rw [loaded_startWith] at ht
    exact Option.some.inj ht ▸ rfl⟩

/-- A node with another id has two. -/
theorem otherNode_two_identities :
    ∃ d, DhtNode.new savedReaders (startWith zeroId) = .ok d ∧
      ¬ ∀ moves s, StepRun.run (System.step Sha1.digest) (System.start d) moves = some s →
        OneIdentity s := by
  refine ⟨_, rfl, fun h => ?_⟩
  have hagree := (h [] _ rfl).table
  change (((startWith zeroId).loaded savedReaders).getD (.new zeroId)).ourId = zeroId at hagree
  rw [loaded_startWith] at hagree
  exact absurd hagree (by decide)

end XferRust.Dht
