import Mathlib.Data.List.Perm.Subperm
import XferRust.Swarm.Blocks

/-! # A complete piece is made of its own blocks

The count of a piece is the number of its entries in the table (`Counted`).  Where every entry
is a block of the piece, a count that reaches the number of blocks means that the entries are
the blocks, each once; and blocks that tile the piece fill the buffer, in whatever order the
table gives them.
-/
namespace XferRust.Swarm.PeerCtx

open StepRun

/-- The places in the buffer that blocks are written to. -/
def spans (order : List (Nat × List UInt8)) : List Tiling.Span :=
  order.map fun e => spanOf e.1 e.2.length

/-! ## The buffer -/

/-- Where blocks fit, they are all written; a place that none of them reaches stays as it was, and
a place that only one of them reaches has its byte. -/
theorem assemble_spec {order : List (Nat × List UInt8)} : ∀ {data : List UInt8},
    (∀ e ∈ order, e.1 + e.2.length ≤ data.length) →
      ∃ out, assemble data order = some out ∧ out.length = data.length ∧
        (∀ o a, data[o]? = some a → Tiling.cover (spans order) o = 0 → out[o]? = some a) ∧
        ∀ o, Tiling.cover (spans order) o = 1 →
          ∃ e ∈ order, e.1 ≤ o ∧ o < e.1 + e.2.length ∧ out[o]? = e.2[o - e.1]? := by
  induction order with
  | nil =>
    intro data _
    refine ⟨data, rfl, rfl, fun o a h _ => h, fun o h => ?_⟩
    cases h
  | cons e order ih =>
    intro data hfit
    obtain ⟨off, blk⟩ := e
    have hhead : off + blk.length ≤ data.length := hfit (off, blk) List.mem_cons_self
    have hlen : (ByteFile.writeAt 0 data off blk).length = data.length := by
      by_cases hblk : blk = []
      · rw [hblk, ByteFile.writeAt_nil]
      · rw [ByteFile.length_writeAt hblk, Nat.max_eq_left hhead]
    have hfit' : ∀ e ∈ order, e.1 + e.2.length ≤ (ByteFile.writeAt 0 data off blk).length :=
      fun e he => hlen ▸ hfit e (List.mem_cons_of_mem _ he)
    obtain ⟨out, hout, houtlen, hkeep, hcovered⟩ := ih hfit'
    have hcons : ∀ o, Tiling.cover (spans ((off, blk) :: order)) o =
        (spanOf off blk.length).hits o + Tiling.cover (spans order) o := fun o =>
      Tiling.cover_cons ..
    refine ⟨out, ?_, houtlen.trans hlen, fun o a ha hnone => ?_, fun o hone => ?_⟩
    · unfold assemble
      rw [if_neg (Nat.not_lt.mpr hhead)]
      exact hout
    · rw [hcons] at hnone
      have hmiss : ¬ (off ≤ o ∧ o < off + blk.length) := fun hin => by
        rw [Tiling.Span.hits_of_mem (s := spanOf off blk.length) hin] at hnone
        omega
      have hsame : ((ByteFile.writeAt 0 data off blk)[o]?).getD 0 = (data[o]?).getD 0 :=
        ByteFile.getD_writeAt_of_not_mem (by omega)
      have hstill := ByteFile.getElem?_eq_some_of_getD ha (ByteFile.length_le_writeAt data blk off)
        hsame
      exact hkeep o a hstill (by omega)
    · rw [hcons] at hone
      by_cases hin : off ≤ o ∧ o < off + blk.length
      · -- the first block has the place, and no later one writes it again
        rw [Tiling.Span.hits_of_mem (s := spanOf off blk.length) hin] at hone
        refine ⟨(off, blk), List.mem_cons_self, hin.1, hin.2, ?_⟩
        have hwrite : (ByteFile.writeAt 0 data off blk)[o]? = blk[o - off]? :=
          ByteFile.getElem?_writeAt_of_mem hin.1 hin.2
        obtain ⟨a, ha⟩ : ∃ a, blk[o - off]? = some a :=
          ⟨_, List.getElem?_eq_getElem (by omega)⟩
        rw [ha] at hwrite ⊢
        exact hkeep o a hwrite (by omega)
      · rw [Tiling.Span.hits_of_not_mem (s := spanOf off blk.length) hin, Nat.zero_add] at hone
        obtain ⟨e, he, hlo, hhi, heq⟩ := hcovered o hone
        exact ⟨e, List.mem_cons_of_mem _ he, hlo, hhi, heq⟩

/-- Blocks that tile a piece make a buffer of their bytes. -/
theorem buffer_of_tiles {plen : Nat} {order : List (Nat × List UInt8)}
    (h : Tiling.Tiles 0 plen (spans order)) (hfit : ∀ e ∈ order, e.1 + e.2.length ≤ plen) :
    ∃ data, buffer plen order = some data ∧ data.length = plen ∧
      ∀ o < plen, ∃ e ∈ order, e.1 ≤ o ∧ o < e.1 + e.2.length ∧ data[o]? = e.2[o - e.1]? := by
  have hfit' : ∀ e ∈ order, e.1 + e.2.length ≤ (List.replicate plen (0 : UInt8)).length :=
    fun e he => List.length_replicate ▸ hfit e he
  obtain ⟨data, hdata, hlen, -, hcovered⟩ := assemble_spec hfit'
  refine ⟨data, hdata, hlen.trans List.length_replicate, fun o ho => hcovered o ?_⟩
  rw [h o, Tiling.Span.hits_of_mem ⟨Nat.zero_le o, ho⟩]

/-! ## The count -/

variable (pieceLen : Nat → Nat)

/-- The numbers of a session say what its table holds: what is needed of a piece is the number of
its blocks, what it has is the number of its entries, and every entry is one of its blocks. -/
structure Counted (c : PeerCtx) : Prop where
  need : ∀ p n, c.blockNeed p = some n → n = (blocksOf pieceLen p).length
  have_ : ∀ p, (c.blockHave p).getD 0 = (c.entries p).length
  keys : (c.blocks.map Prod.fst).Nodup
  listed : ∀ e ∈ c.blocks, (e.1.2, e.2.length) ∈ blocksOf pieceLen e.1.1

variable {pieceLen}

variable {c : PeerCtx} {p : Nat}

theorem mem_entries {off : Nat} {blk : List UInt8} :
    (off, blk) ∈ c.entries p ↔ ((p, off), blk) ∈ c.blocks := by
  unfold entries
  rw [List.mem_map]
  constructor
  · rintro ⟨⟨⟨q, off'⟩, blk'⟩, he, heq⟩
    obtain ⟨he, hq⟩ := List.mem_filter.mp he
    obtain ⟨rfl, rfl⟩ := Prod.mk.inj heq
    have hqp : q = p := of_decide_eq_true hq
    exact hqp ▸ he
  · intro he
    exact ⟨((p, off), blk), List.mem_filter.mpr ⟨he, decide_eq_true rfl⟩, rfl⟩

theorem Counted.nodup_entries (h : c.Counted pieceLen) (p : Nat) :
    ((c.entries p).map Prod.fst).Nodup := by
  have hkeys : ((c.blocks.filter fun e => e.1.1 = p).map Prod.fst).Nodup :=
    h.keys.sublist (List.Sublist.map _ List.filter_sublist)
  have hinj : ((c.entries p).map fun e => (p, e.1)) =
      (c.blocks.filter fun e => e.1.1 = p).map Prod.fst := by
    unfold entries
    rw [List.map_map]
    refine List.map_congr_left fun e he => ?_
    have hp : e.1.1 = p := of_decide_eq_true (List.mem_filter.mp he).2
    show (p, e.1.2) = e.1
    rw [← hp]
  rw [← hinj] at hkeys
  have hmap : (c.entries p).map (fun e => (p, e.1)) =
      ((c.entries p).map Prod.fst).map fun off => (p, off) := by
    rw [List.map_map]
    rfl
  rw [hmap] at hkeys
  exact List.Pairwise.of_map _ (fun a b hne heq => hne (congrArg _ heq)) hkeys

/-- **A count that is reached** means that the entries are the blocks of the piece, each once. -/
theorem Counted.perm (h : c.Counted pieceLen) (hcomplete : c.pieceComplete p = true) :
    ((c.entries p).map fun e => (e.1, e.2.length)).Perm (blocksOf pieceLen p) := by
  have hfst : ((c.entries p).map fun e => (e.1, e.2.length)).map Prod.fst =
      (c.entries p).map Prod.fst := by
    rw [List.map_map]
    rfl
  have hnodup : ((c.entries p).map fun e => (e.1, e.2.length)).Nodup := by
    have hn := h.nodup_entries p
    rw [← hfst] at hn
    exact List.Pairwise.of_map _ (fun a b hne heq => hne (congrArg _ heq)) hn
  have hsub : (c.entries p).map (fun e => (e.1, e.2.length)) ⊆ blocksOf pieceLen p := by
    intro b hb
    obtain ⟨⟨off, blk⟩, he, rfl⟩ := List.mem_map.mp hb
    exact h.listed _ (mem_entries.mp he)
  refine (hnodup.subperm hsub).perm_of_length_le ?_
  rw [List.length_map]
  unfold pieceComplete at hcomplete
  split at hcomplete
  · rename_i need have_ hneed hhave
    obtain ⟨-, hle⟩ := of_decide_eq_true hcomplete
    rw [← h.need p need hneed, ← h.have_ p, hhave]
    exact hle
  · cases hcomplete

/-- What the claim of completeness promises of a piece: every block was received whole, and the
buffer has only bytes of blocks, whatever the order of the table. -/
structure Assembled (pieceLen : Nat → Nat) (c : PeerCtx) (p : Nat) : Prop where
  received : ∀ b ∈ blocksOf pieceLen p, ∃ blk, ((p, b.1), blk) ∈ c.blocks ∧ blk.length = b.2
  buffer : ∀ order, order.Perm (c.entries p) →
    ∃ data, buffer (pieceLen p) order = some data ∧ data.length = pieceLen p ∧
      ∀ o < pieceLen p, ∃ e ∈ order, e.1 ≤ o ∧ o < e.1 + e.2.length ∧ data[o]? = e.2[o - e.1]?

theorem Counted.assembled (h : c.Counted pieceLen) (hsmall : pieceLen p < 4294967296)
    (hcomplete : c.pieceComplete p = true) :
    c.Assembled pieceLen p where
  received := by
    intro b hb
    obtain ⟨⟨off, blk⟩, he, rfl⟩ := List.mem_map.mp ((h.perm hcomplete).mem_iff.mpr hb)
    exact ⟨blk, mem_entries.mp he, rfl⟩
  buffer := by
    intro order horder
    have hchain : Tiling.Chain 0 (pieceLen p)
        ((blocksOf pieceLen p).map fun b => spanOf b.1 b.2) := by
      have hlen : asU32 (pieceLen p) = pieceLen p := Nat.mod_eq_of_lt hsmall
      unfold blocksOf
      rw [hlen]
      exact requestBlocks_chain (pieceLen p) (by decide)
    have hspans : ((blocksOf pieceLen p).map fun b => spanOf b.1 b.2).Perm (spans order) := by
      refine ((h.perm hcomplete).symm.map _).trans ?_
      rw [List.map_map]
      exact (horder.map _).symm
    refine buffer_of_tiles (hchain.tiles.perm hspans) fun e he => ?_
    have hmem : spanOf e.1 e.2.length ∈ (blocksOf pieceLen p).map fun b => spanOf b.1 b.2 :=
      hspans.mem_iff.mpr (List.mem_map_of_mem he)
    exact (hchain.bounds _ hmem).2.2

/-! ## What the steps do to the count -/

theorem counted_new : new.Counted pieceLen where
  need := fun _ _ h => nomatch h
  have_ := fun _ => rfl
  keys := List.nodup_nil
  listed := fun _ h => nomatch h

/-- A change that leaves the table and its count, and needs the right number of blocks of any
further piece. -/
structure Registers (pieceLen : Nat → Nat) (c c' : PeerCtx) : Prop where
  blocks : c'.blocks = c.blocks
  have_ : c'.blockHave = c.blockHave
  need : ∀ p n, c'.blockNeed p = some n →
    c.blockNeed p = some n ∨ n = (blocksOf pieceLen p).length

theorem Registers.refl (c : PeerCtx) : Registers pieceLen c c := ⟨rfl, rfl, fun _ _ h => .inl h⟩

theorem Registers.trans {c₁ c₂ c₃ : PeerCtx} (h₁₂ : Registers pieceLen c₁ c₂)
    (h₂₃ : Registers pieceLen c₂ c₃) : Registers pieceLen c₁ c₃ where
  blocks := h₂₃.blocks.trans h₁₂.blocks
  have_ := h₂₃.have_.trans h₁₂.have_
  need := by
    intro p n h
    rcases h₂₃.need p n h with h | h
    · exact h₁₂.need p n h
    · exact .inr h

theorem Counted.registers {c' : PeerCtx} (h : c.Counted pieceLen) (hreg : Registers pieceLen c c') :
    c'.Counted pieceLen where
  need := by
    intro p n hn
    rcases hreg.need p n hn with hn | hn
    · exact h.need p n hn
    · exact hn
  have_ := by
    intro p
    unfold entries
    rw [hreg.have_, hreg.blocks]
    exact h.have_ p
  keys := hreg.blocks ▸ h.keys
  listed := hreg.blocks ▸ h.listed

theorem registers_needOrInsert {n : Nat} (hn : n = (blocksOf pieceLen p).length) :
    Registers pieceLen c (c.needOrInsert p n) where
  blocks := rfl
  have_ := rfl
  need := by
    intro q m hm
    by_cases hq : q = p
    · subst hq
      have hself : (c.needOrInsert q n).blockNeed q = some ((c.blockNeed q).getD n) :=
        Function.update_self ..
      have hsome : some ((c.blockNeed q).getD n) = some m := hself.symm.trans hm
      cases hneed : c.blockNeed q with
      | none =>
        rw [hneed] at hsome
        exact .inr ((Option.some.inj hsome).symm.trans hn)
      | some k =>
        rw [hneed] at hsome
        exact .inl hsome
    · have hother : (c.needOrInsert p n).blockNeed q = c.blockNeed q := Function.update_of_ne hq ..
      exact .inl (hother.symm.trans hm)

/-- The queue and the requests have no part in the count. -/
theorem registers_other (c : PeerCtx) (queued : List Nat) (inFlight : List (Nat × Nat)) :
    Registers pieceLen c { c with queued, inFlight } := ⟨rfl, rfl, fun _ _ h => .inl h⟩

theorem registers_fillLoop (pipeline : Nat) : ∀ {rounds : Nat} {c : PeerCtx}
    {pieces : List (Nat × List (Nat × Nat))} {offers : List Nat} {requests : List (Nat × Nat × Nat)},
    Registers pieceLen c (c.fillLoop pieceLen pipeline rounds pieces offers requests).1 := by
  intro rounds
  induction rounds with
  | zero => exact fun {c _ _ _} => .refl c
  | succ rounds ih =>
    intro c pieces offers requests
    unfold fillLoop
    split
    · exact .refl c
    split
    · rename_i piece begin len _
      exact (registers_other c c.queued ((piece, begin) :: c.inFlight)).trans ih
    split
    · exact .refl c
    split
    · exact .refl c
    · rename_i p offers
      have hneed : Registers pieceLen c (c.needOrInsert p (blocksOf pieceLen p).length) :=
        registers_needOrInsert rfl
      exact hneed.trans ((registers_other _ (c.queued ++ [p]) c.inFlight).trans ih)

theorem registers_foldl {ps : List Nat} : ∀ {c : PeerCtx},
    Registers pieceLen c ((ps.map fun p => (p, blocksOf pieceLen p)).foldl
      (fun c e => c.needOrInsert e.1 e.2.length) c) := by
  induction ps with
  | nil => exact fun {c} => .refl c
  | cons p ps ih => exact fun {c} => (registers_needOrInsert rfl).trans ih

theorem registers_fillPipeline (c : PeerCtx) (pipeline : Nat) (offers : List Nat) :
    Registers pieceLen c (c.fillPipeline pieceLen pipeline offers).1 := by
  unfold fillPipeline
  split
  · exact .refl c
  · exact registers_foldl.trans (registers_fillLoop pipeline)

theorem hasBlock_iff {key : Nat × Nat} : c.hasBlock key = true ↔ key ∈ c.blocks.map Prod.fst := by
  unfold hasBlock
  rw [List.any_eq_true, List.mem_map]
  simp only [decide_eq_true_eq]

variable {begin index : Nat} {block : List UInt8}

/-- A block that came before is replaced: the keys stay. -/
theorem Counted.replace (h : c.Counted pieceLen)
    (hlisted : (begin, block.length) ∈ blocksOf pieceLen index) :
    Counted pieceLen { c with
      blocks := c.blocks.map fun e => if e.1 = (index, begin) then (e.1, block) else e } := by
  have hkey : ∀ e : (Nat × Nat) × List UInt8,
      (if e.1 = (index, begin) then (e.1, block) else e).1 = e.1 := by
    intro e
    split <;> rfl
  refine ⟨h.need, fun p => ?_, ?_, fun e he => ?_⟩
  · rw [h.have_ p]
    unfold entries
    rw [List.length_map, List.length_map, List.filter_map, List.length_map]
    refine congrArg List.length (List.filter_congr fun e _ => ?_)
    show _ = decide ((if e.1 = (index, begin) then (e.1, block) else e).1.1 = p)
    rw [hkey]
  · have hkeys : (c.blocks.map fun e => if e.1 = (index, begin) then (e.1, block) else e).map
        Prod.fst = c.blocks.map Prod.fst := by
      rw [List.map_map]
      exact List.map_congr_left fun e _ => hkey e
    show List.Nodup (List.map Prod.fst _)
    rw [hkeys]
    exact h.keys
  · obtain ⟨e', he', rfl⟩ := List.mem_map.mp he
    split
    · rename_i heq
      rw [heq]
      exact hlisted
    · exact h.listed e' he'

/-- A block at a new offset is counted. -/
theorem Counted.add (h : c.Counted pieceLen)
    (hlisted : (begin, block.length) ∈ blocksOf pieceLen index)
    (hnew : (index, begin) ∉ c.blocks.map Prod.fst) :
    Counted pieceLen { c with
      blocks := c.blocks ++ [((index, begin), block)]
      blockHave := Function.update c.blockHave index (some ((c.blockHave index).getD 0 + 1)) } := by
  refine ⟨h.need, fun p => ?_, ?_, fun e he => ?_⟩
  · show ((Function.update c.blockHave index _) p).getD 0 =
      (((c.blocks ++ [((index, begin), block)]).filter fun e => e.1.1 = p).map fun e =>
        (e.1.2, e.2)).length
    have hold : (c.blocks.filter fun e => e.1.1 = p).length = (c.blockHave p).getD 0 := by
      rw [h.have_ p]
      exact (List.length_map ..).symm
    rw [List.length_map, List.filter_append, List.length_append, hold]
    by_cases hp : p = index
    · subst hp
      have hone : ([((p, begin), block)].filter fun e => e.1.1 = p).length = 1 := by simp
      rw [Function.update_self, hone]
      rfl
    · rw [Function.update_of_ne hp,
        List.filter_cons_of_neg fun heq => hp (of_decide_eq_true heq).symm]
      rfl
  · show List.Nodup (List.map Prod.fst _)
    rw [List.map_append]
    refine List.nodup_append.mpr ⟨h.keys, ?_, fun a ha b hb heq => ?_⟩
    · exact List.nodup_cons.mpr ⟨List.not_mem_nil, List.nodup_nil⟩
    · obtain rfl : b = (index, begin) := List.mem_singleton.mp hb
      exact hnew (heq ▸ ha)
  · rcases List.mem_append.mp he with he | he
    · exact h.listed e he
    · obtain rfl := List.mem_singleton.mp he
      exact hlisted

/-- A block that the piece has is counted once, however often it comes. -/
theorem Counted.store (h : c.Counted pieceLen)
    (hlisted : (begin, block.length) ∈ blocksOf pieceLen index) :
    (c.store index begin block).Counted pieceLen := by
  have hinsert : (c.insertBlock index begin block).Counted pieceLen := by
    unfold insertBlock
    split
    · exact h.replace hlisted
    · rename_i hnew
      exact h.add hlisted fun hmem => hnew (hasBlock_iff.mpr hmem)
  exact hinsert.registers (registers_other _ (c.insertBlock index begin block).queued _)

/-- A released piece has no entries and no numbers left, and the other pieces have all theirs. -/
theorem Counted.dropPiece (h : c.Counted pieceLen) (index : Nat) :
    (c.dropPiece index).Counted pieceLen := by
  refine ⟨fun p n hn => ?_, fun p => ?_, ?_, fun e he => h.listed e (List.mem_filter.mp he).1⟩
  · by_cases hp : p = index
    · subst hp
      have hself : (c.dropPiece p).blockNeed p = none := Function.update_self ..
      rw [hself] at hn
      cases hn
    · have hother : (c.dropPiece index).blockNeed p = c.blockNeed p := Function.update_of_ne hp ..
      exact h.need p n (hother.symm.trans hn)
  · show ((Function.update c.blockHave index none) p).getD 0 =
      (((c.blocks.filter fun e => e.1.1 ≠ index).filter fun e => e.1.1 = p).map fun e =>
        (e.1.2, e.2)).length
    rw [List.length_map, List.filter_filter]
    by_cases hp : p = index
    · subst hp
      rw [Function.update_self]
      refine (List.length_eq_zero_iff.mpr (List.filter_eq_nil_iff.mpr fun e _ => ?_)).symm
      simp
    · rw [Function.update_of_ne hp, h.have_ p]
      unfold entries
      rw [List.length_map]
      refine congrArg List.length (List.filter_congr fun e _ => ?_)
      by_cases he : e.1.1 = p
      · simp [he, hp]
      · simp [he]
  · exact h.keys.sublist (List.Sublist.map _ List.filter_sublist)

/-! ## Runs of a session -/

variable (pieceLen) in
/-- The messages that keep to the pieces: a block of a queued piece is one that `request_blocks`
lists, and the piece is shorter than 4 GiB. -/
def Listed (c : PeerCtx) : Event → Prop
  | .piece index begin block =>
    index ∈ c.queued →
      (begin, block.length) ∈ blocksOf pieceLen index ∧ pieceLen index < 4294967296
  | _ => True

instance (c : PeerCtx) : DecidablePred (c.Listed pieceLen) := fun e => by
  cases e <;> unfold Listed <;> infer_instance

variable (pieceLen) in
/-- Where the handler of `Piece` finds the piece complete, the piece is assembled from its own
blocks. -/
def FromOwnBlocks (c : PeerCtx) : Event → Prop
  | .piece index begin block =>
    index ∈ c.queued → (c.store index begin block).pieceComplete index = true →
      (c.store index begin block).Assembled pieceLen index
  | _ => True

/-- **Step.**  A listed step keeps the count. -/
theorem Counted.step {c' : PeerCtx} {e : Event} (h : c.Counted pieceLen)
    (hlisted : c.Listed pieceLen e) (hstep : c.step pieceLen e = some c') :
    c'.Counted pieceLen := by
  cases e with
  | fill pipeline offers =>
    cases hstep
    exact h.registers (registers_fillPipeline c pipeline offers)
  | suggested index =>
    cases hstep
    have hneed : Registers pieceLen c
        (c.needOrInsert index ((asU32 (pieceLen index) + blockSize - 1) / blockSize)) :=
      registers_needOrInsert (length_requestBlocks _ (by decide)).symm
    exact h.registers (hneed.trans (registers_other _ (c.queued ++ [index]) c.inFlight))
  | piece index begin block =>
    cases hstep
    unfold onPiece
    split
    · exact h
    · rename_i hqueued
      have hstore := h.store (hlisted (Classical.not_not.mp hqueued)).1
      dsimp only
      split
      · exact hstore.dropPiece index
      · exact hstore
  | rejected index begin =>
    cases hstep
    exact h.registers (registers_other c c.queued _)
  | timedOut =>
    cases hstep
    exact h.registers (registers_other c c.queued [])
  | choke =>
    cases hstep
    exact counted_new
  | taken =>
    cases hstep
    exact h.registers (registers_other c [] c.inFlight)

/-- **A piece is assembled from its own blocks** in every run of a session in which the blocks that
come for queued pieces are blocks that `request_blocks` lists: whenever a piece is found complete,
each of its blocks was received with its length, and the buffer that is hashed has no other byte. -/
theorem assembled_from_own_blocks {es : List Event}
    (h : Along (step pieceLen) (Listed pieceLen) new es) :
    Along (step pieceLen) (FromOwnBlocks pieceLen) new es := by
  refine along_of_along (J := Counted pieceLen) (fun c e hc hlisted => ?_)
    (fun c e c' hc hlisted hstep => hc.step hlisted hstep) counted_new h
  cases e with
  | piece index begin block =>
    intro hqueued hcomplete
    obtain ⟨hblock, hsmall⟩ := hlisted hqueued
    exact (hc.store hblock).assembled hsmall hcomplete
  | _ => trivial

/-- A torrent of one piece of 20000 bytes. -/
def onePiece (p : Nat) : Nat := if p = 0 then 20000 else 0

/-- The piece comes in its two blocks, one of them twice. -/
def wholeRun : List Event :=
  [.fill 16 [0], .piece 0 0 (List.replicate 16384 7), .piece 0 0 (List.replicate 16384 8),
    .piece 0 16384 (List.replicate 3616 9), .piece 0 0 [1]]

theorem wholeRun_assembled : Along (step onePiece) (FromOwnBlocks onePiece) new wholeRun :=
  assembled_from_own_blocks (by decide +kernel)

/-- The peer sends two bytes at offsets 0 and 1. -/
def crumbsRun : List Event := [.fill 16 [0], .piece 0 0 [7], .piece 0 1 [8]]

/-- The second byte makes the piece complete, though of its last block nothing has come. -/
theorem crumbsRun_complete :
    (∃ c, run (step onePiece) new (crumbsRun.take 2) = some c ∧ c.queued = [0] ∧
      (c.store 0 1 [8]).pieceComplete 0 = true ∧ (16384, 3616) ∈ blocksOf onePiece 0 ∧
      (c.store 0 1 [8]).entries 0 = [(0, [7]), (1, [8])]) ∧
    ¬ Along (step onePiece) (FromOwnBlocks onePiece) new crumbsRun := by
  have hrun : ∃ c, run (step onePiece) new (crumbsRun.take 2) = some c ∧ c.queued = [0] ∧
      (c.store 0 1 [8]).pieceComplete 0 = true ∧ (16384, 3616) ∈ blocksOf onePiece 0 ∧
      (c.store 0 1 [8]).entries 0 = [(0, [7]), (1, [8])] :=
    ⟨_, rfl, by decide +kernel, by decide +kernel, by decide +kernel, by decide +kernel⟩
  refine ⟨hrun, fun hall => ?_⟩
  obtain ⟨c, hc, hqueued, hcomplete, hblock, hentries⟩ := hrun
  have hown : c.FromOwnBlocks onePiece (.piece 0 1 [8]) := hall.at_run hc
  obtain ⟨blk, hblk, -⟩ := (hown (hqueued ▸ List.mem_cons_self) hcomplete).received _ hblock
  have hmem := mem_entries.mpr hblk
  rw [hentries] at hmem
  simp at hmem

end XferRust.Swarm.PeerCtx
