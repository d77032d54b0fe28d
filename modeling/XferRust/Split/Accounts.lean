import XferRust.Split.Session

/-! # The segments tile the file and the counters are exact

`Exact` is what a split download owes: its segments tile the missing part of the file, its
counters agree with them, and it is finished exactly when every byte has been written, none of
them twice.  The invariant behind it (`Tiled`) also says that the bytes in the file are those
below the watermarks.  Cuts and writes keep it by an exchange of equal sums (`total_set`), and
everything else a command does leaves the extents of the segments alone.
-/
namespace XferRust.Split
open Tiling StepRun

/-- The bytes of a segment. -/
def Seg.span (s : Seg) : Span := ⟨s.start.toNat, s.end_.toNat⟩

/-- The number of bytes a segment lacks. -/
def Seg.left (s : Seg) : Nat := s.end_.toNat - (s.start.toNat + s.written.toNat)

/-- The tiling and the accounts of a split download are exact. -/
structure Session.Exact (s : Session) : Prop where
  base_le : s.w.base.toNat ≤ s.w.total.toNat
  tiles : Tiles s.w.base.toNat s.w.total.toNat
    ((s.w.segs.filter fun g => g.start < g.end_).map Seg.span)
  bounds : ∀ g ∈ s.w.segs, g.start.toNat + g.written.toNat ≤ g.end_.toNat
  todo : s.w.todo.toNat = total Seg.left s.w.segs
  completed : s.w.completed.toNat = s.w.total.toNat - s.w.todo.toNat
  finished : s.w.todo = 0 ↔
    ∀ n, s.w.base.toNat ≤ n → n < s.w.total.toNat → 0 < cover s.file n
  once : ∀ n, cover s.file n ≤ 1

/-! ## The invariant -/

/-- The segments tile `[base, total)`, the counters are the sums over them, and the file holds
the bytes below the watermarks. -/
structure Tiled (b : Table) (file : List Span) : Prop where
  base_le : b.base.toNat ≤ b.total.toNat
  bounds : ∀ s ∈ b.segs, s.start.toNat + s.written.toNat ≤ s.end_.toNat
  tiles : ∀ n, total (fun s => s.span.hits n) b.segs =
    (Span.mk b.base.toNat b.total.toNat).hits n
  todo : b.todo.toNat = total Seg.left b.segs
  completed : b.completed.toNat + b.todo.toNat = b.total.toNat
  file : ∀ n, cover file n = total (fun s => s.writtenSpan.hits n) b.segs

/-- An empty segment holds no byte. -/
theorem hits_of_empty {g : Seg} (h : ¬ g.start < g.end_) (n : Nat) : g.span.hits n = 0 := by
  rw [UInt64.lt_iff_toNat_lt] at h
  refine Span.hits_of_not_mem fun hn => ?_
  simp only [Seg.span] at hn
  omega

namespace Tiled
variable {b : Table} {file : List Span}

variable {s : Seg}

theorem toNat_remaining (h : s.start.toNat + s.written.toNat ≤ s.end_.toNat) :
    s.remaining.toNat = s.left := by
  unfold Seg.remaining Seg.left
  rw [Word.toNat_sub, Word.toNat_sub]
  · omega
  · omega
  · rw [Word.toNat_sub (by omega)]
    omega

theorem toNat_pos (h : s.start.toNat + s.written.toNat ≤ s.end_.toNat) {k : UInt64}
    (hk : k.toNat ≤ s.left) :
    (s.start + s.written + k).toNat = s.start.toNat + s.written.toNat + k.toNat := by
  have := s.end_.toNat_lt
  unfold Seg.left at hk
  rw [Word.toNat_add, Word.toNat_add]
  · omega
  · rw [Word.toNat_add]
    · omega
    · omega

/-- **A cut keeps the tiling.** -/
theorem cut (h : Tiled b file) {sid : Nat} {k : UInt64} (t now : Nat) (hs : b.segs[sid]? = some s)
    (hk : k < s.remaining) : Tiled (b.cut sid s k t now) file := by
  have hb := h.bounds s (List.mem_of_getElem? hs)
  have hkl : k.toNat < s.left := by
    rw [← toNat_remaining hb]
    exact UInt64.lt_iff_toNat_lt.mp hk
  have hpos := toNat_pos hb (Nat.le_of_lt hkl)
  have hleft : s.left = s.end_.toNat - (s.start.toNat + s.written.toNat) := rfl
  refine ⟨h.base_le, ?_, ?_, ?_, h.completed, ?_⟩
  · intro x hx
    rcases List.mem_append.mp hx with hx | hx
    · rcases List.mem_or_eq_of_mem_set hx with hx | rfl
      · exact h.bounds x hx
      · simp only [Seg.keep, hpos]
        omega
    · obtain rfl := List.mem_singleton.mp hx
      simp only [Seg.rest, Seg.fresh, hpos]
      show _ + 0 ≤ _
      omega
  · intro n
    have hset := total_set (f := fun x => x.span.hits n) hs (s.keep k t)
    have hcut := hits_cut (show s.start.toNat ≤ (s.start + s.written + k).toNat by omega)
      (show _ ≤ s.end_.toNat by omega) n
    have htiles := h.tiles n
    simp only [Table.cut, total_append, total_cons, total_nil]
    simp only [Seg.span, Seg.keep, Seg.rest, Seg.fresh] at hset htiles ⊢
    omega
  · have hset := total_set (f := Seg.left) hs (s.keep k t)
    have htodo := h.todo
    simp only [Table.cut, total_append, total_cons, total_nil]
    have hkeep : (s.keep k t).left = k.toNat := by
      simp only [Seg.left, Seg.keep, hpos]
      omega
    have hrest : (s.rest k now).left = s.left - k.toNat := by
      simp only [Seg.left, Seg.rest, Seg.fresh, hpos]
      show _ - (_ + 0) = _
      omega
    omega
  · intro n
    have hset := total_set (f := fun x => x.writtenSpan.hits n) hs (s.keep k t)
    have hfile := h.file n
    have hrest : (s.rest k now).writtenSpan.hits n = 0 := by
      refine Span.hits_of_not_mem fun hn => ?_
      simp only [Seg.writtenSpan, Seg.rest, Seg.fresh] at hn
      have : (0 : UInt64).toNat = 0 := rfl
      omega
    have hkeep : (s.keep k t).writtenSpan = s.writtenSpan := rfl
    rw [hkeep] at hset
    simp only [Table.cut, total_append, total_cons, total_nil, hrest]
    omega

/-- **A write keeps the tiling**, with its bytes added to the file. -/
theorem land (h : Tiled b file) {sid : Nat} {n : UInt64} (now : Nat) (hs : b.segs[sid]? = some s)
    (hn : n ≤ s.remaining) :
    Tiled (b.land sid s n now)
      (file ++ [⟨(s.start + s.written).toNat, (s.start + s.written).toNat + n.toNat⟩]) := by
  have hb := h.bounds s (List.mem_of_getElem? hs)
  have hnl : n.toNat ≤ s.left := by
    rw [← toNat_remaining hb]
    exact UInt64.le_iff_toNat_le.mp hn
  have hpos : (s.start + s.written).toNat = s.start.toNat + s.written.toNat := by
    have := s.end_.toNat_lt
    exact Word.toNat_add (by omega)
  have hleft : s.left = s.end_.toNat - (s.start.toNat + s.written.toNat) := rfl
  have hwritten : (s.written + n).toNat = s.written.toNat + n.toNat := by
    have := s.end_.toNat_lt
    exact Word.toNat_add (by omega)
  have hland : (s.land n now).left = s.left - n.toNat := by
    simp only [Seg.left, Seg.land, hwritten]
    omega
  have htodo := h.todo
  have hcompleted := h.completed
  have hset := total_set hs (s.land n now) (f := Seg.left)
  have hle := le_total (f := Seg.left) (List.mem_of_getElem? hs)
  have hsub : (b.todo - n).toNat = b.todo.toNat - n.toNat := Word.toNat_sub (by omega)
  refine ⟨h.base_le, ?_, ?_, ?_, ?_, ?_⟩
  · intro x hx
    rcases List.mem_or_eq_of_mem_set hx with hx | rfl
    · exact h.bounds x hx
    · simp only [Seg.land, hwritten]
      omega
  · intro m
    have hset := total_set (f := fun x => x.span.hits m) hs (s.land n now)
    have htiles := h.tiles m
    have hspan : (s.land n now).span = s.span := rfl
    rw [hspan] at hset
    simp only [Table.land]
    omega
  · simp only [Table.land, hsub]
    omega
  · have hadd : (b.completed + n).toNat = b.completed.toNat + n.toNat := by
      have := b.total.toNat_lt
      exact Word.toNat_add (by omega)
    simp only [Table.land, hsub, hadd]
    omega
  · intro m
    have hset := total_set (f := fun x => x.writtenSpan.hits m) hs (s.land n now)
    have hfile := h.file m
    have hcut := hits_cut (Nat.le_add_right s.start.toNat s.written.toNat)
      (Nat.le_add_right _ n.toNat) m
    simp only [Table.land, cover_append, cover_cons, cover_nil, hpos]
    simp only [Seg.writtenSpan, Seg.land, hwritten, ← Nat.add_assoc] at hset hfile ⊢
    omega

end Tiled

theorem total_extent {f : Seg → Nat} (hf : ∀ s, f s.extent = f s) (segs : List Seg) :
    total f (segs.map Seg.extent) = total f segs := by
  rw [total_map]
  exact total_congr fun s _ => hf s

theorem Tiled.sameExtents {b b' : Table} {file : List Span} (h : Tiled b file)
    (hb : SameExtents b b') : Tiled b' file := by
  have htotal : ∀ f : Seg → Nat, (∀ s, f s.extent = f s) → total f b'.segs = total f b.segs := by
    intro f hf
    rw [← total_extent hf b'.segs, hb.segs, total_extent hf]
  refine ⟨?_, ?_, ?_, ?_, ?_, ?_⟩
  · rw [hb.base, hb.total]
    exact h.base_le
  · intro s hs
    have hmem : s.extent ∈ b.segs.map Seg.extent := hb.segs ▸ List.mem_map_of_mem hs
    obtain ⟨s₀, hs₀, he⟩ := List.mem_map.mp hmem
    have := h.bounds s₀ hs₀
    rw [show s.start = s₀.start from (congrArg Seg.start he).symm,
      show s.written = s₀.written from (congrArg Seg.written he).symm,
      show s.end_ = s₀.end_ from (congrArg Seg.end_ he).symm]
    exact this
  · intro n
    rw [htotal _ fun s => rfl, hb.base, hb.total]
    exact h.tiles n
  · rw [hb.todo, htotal _ fun s => rfl]
    exact h.todo
  · rw [hb.todo, hb.completed, hb.total]
    exact h.completed
  · intro n
    rw [htotal _ fun s => rfl]
    exact h.file n

/-- Cuts and writes keep the tiling, and nothing else touches it. -/
theorem tiled_ledger : Ledger Tiled where
  cut h hs hk := h.cut _ _ hs hk
  same h hb := h.sameExtents hb
  land h hs hoffset hn _ _ := by
    rw [hoffset]
    exact h.land _ hs hn

/-- **One step keeps the tiling.** -/
theorem step_tiled {s s' : Session} {e : Event} (h : Tiled s.w.table s.file)
    (he : s.step e = some s') : Tiled s'.w.table s'.file := by
  rw [Session.file_step he]
  exact tiled_ledger.step h he

/-! ## What the invariant says -/

/-- **The invariant makes the accounts exact.** -/
theorem Tiled.exact {s : Session} (h : Tiled s.w.table s.file) : s.Exact := by
  have htiles : ∀ n, total (fun g => g.span.hits n) s.w.segs =
    (Span.mk s.w.base.toNat s.w.total.toNat).hits n := h.tiles
  have hwritten : ∀ n, cover s.file n = total (fun g => g.writtenSpan.hits n) s.w.segs := h.file
  have hle : ∀ g ∈ s.w.segs, ∀ n, g.writtenSpan.hits n ≤ g.span.hits n := by
    intro g hg n
    have hb := h.bounds g hg
    have hcut := hits_cut (Nat.le_add_right g.start.toNat g.written.toNat) hb n
    simp only [Seg.writtenSpan, Seg.span]
    omega
  have hfile : ∀ n, cover s.file n ≤
      (Span.mk s.w.base.toNat s.w.total.toNat).hits n := by
    intro n
    rw [hwritten n, ← htiles n]
    exact total_le fun g hg => hle g hg n
  refine ⟨h.base_le, ?_, h.bounds, h.todo, ?_, ?_, ?_⟩
  · intro n
    rw [cover_map, total_filter fun g _ hg => hits_of_empty (of_decide_eq_false hg) n]
    exact htiles n
  · have := h.completed
    simp only [Writer.table] at this
    omega
  · constructor
    · intro h0 n hbase htotal
      have htodo := h.todo
      rw [show s.w.table.todo = s.w.todo from rfl, h0] at htodo
      have hleft := total_eq_zero.mp htodo.symm
      -- nothing is left, so every segment is below its watermark
      rw [hwritten n, total_congr (g := fun g => g.span.hits n) fun g hg => ?_]
      · rw [htiles n]
        exact Span.hits_pos.mpr ⟨hbase, htotal⟩
      · have hb := h.bounds g hg
        have := hleft g hg
        unfold Seg.left at this
        simp only [Seg.writtenSpan, Seg.span]
        rw [show g.start.toNat + g.written.toNat = g.end_.toNat by omega]
    · intro hall
      refine Classical.byContradiction fun hne => ?_
      have hpos : 0 < total Seg.left s.w.segs := by
        refine Nat.pos_of_ne_zero fun h0 => hne ?_
        have htodo := h.todo
        rw [show s.w.table.segs = s.w.segs from rfl, h0] at htodo
        exact UInt64.toNat_inj.mp htodo
      -- the first missing byte of some segment
      obtain ⟨g, hg, hlt⟩ : ∃ g ∈ s.w.segs, 0 < g.left := by
        refine Classical.byContradiction fun hn => ?_
        have : total Seg.left s.w.segs = 0 := total_eq_zero.mpr fun g hg =>
          Nat.eq_zero_of_not_pos fun hp => hn ⟨g, hg, hp⟩
        omega
      unfold Seg.left at hlt
      generalize hn : g.start.toNat + g.written.toNat = n at hlt
      have hmiss : g.writtenSpan.hits n < g.span.hits n := by
        rw [Span.hits_of_mem (s := g.span) ⟨by simp only [Seg.span]; omega,
          by simp only [Seg.span]; omega⟩, Span.hits_of_not_mem fun hb => ?_]
        · decide
        · simp only [Seg.writtenSpan] at hb
          omega
      have hless : cover s.file n < (Span.mk s.w.base.toNat s.w.total.toNat).hits n := by
        rw [hwritten n, ← htiles n]
        exact total_lt (fun g hg => hle g hg n) hg hmiss
      have hin := Span.hits_pos.mp (Nat.lt_of_le_of_lt (Nat.zero_le _) hless)
      have hcov := hall n hin.1 hin.2
      rw [Span.hits_of_mem hin] at hless
      omega
  · intro n
    refine Nat.le_trans (hfile n) ?_
    unfold Span.hits
    split
    · exact Nat.le_refl 1
    · exact Nat.zero_le 1

/-! ## The start -/

variable {base total : UInt64}

/-- A table whose segments follow each other from `base` to `total` starts tiled. -/
theorem tiled_ofTable (url : String) (opts : SplitOptions) (now : Nat) {segs : List Seg}
    (hbase : base.toNat ≤ total.toNat)
    (hbounds : ∀ s ∈ segs, s.start.toNat + s.written.toNat ≤ s.end_.toNat)
    (hchain : Chain base.toNat total.toNat (segs.map Seg.span)) :
    Tiled (Writer.ofTable url total opts now base segs).table (segs.map Seg.writtenSpan) := by
  have hremaining : ∀ s ∈ segs, s.remaining.toNat = s.left := fun s hs =>
    Tiled.toNat_remaining (hbounds s hs)
  have hsize : Tiling.total Seg.left segs ≤ total.toNat - base.toNat := by
    have h := hchain.total_size
    have hle : Tiling.total Seg.left segs ≤
        Tiling.total (fun s => s.hi - s.lo) (segs.map Seg.span) := by
      rw [total_map]
      exact total_le fun s _ => by
        simp only [Seg.left, Seg.span]
        omega
    omega
  have htodo : (Word.sum Seg.remaining segs).toNat = Tiling.total Seg.left segs := by
    rw [Word.toNat_sum, total_congr hremaining]
    have := total.toNat_lt
    exact Nat.mod_eq_of_lt (by omega)
  have hsat : (satSub (total - base) (Word.sum Seg.remaining segs)).toNat =
      total.toNat - base.toNat - Tiling.total Seg.left segs := by
    unfold satSub
    rw [if_pos, Word.toNat_sub, Word.toNat_sub hbase, htodo]
    · rw [Word.toNat_sub hbase, htodo]
      exact hsize
    · rw [UInt64.le_iff_toNat_le, Word.toNat_sub hbase, htodo]
      exact hsize
  have hcompleted : (base + satSub (total - base) (Word.sum Seg.remaining segs)).toNat =
      base.toNat + (total.toNat - base.toNat - Tiling.total Seg.left segs) := by
    have := total.toNat_lt
    rw [Word.toNat_add, hsat]
    omega
  refine ⟨hbase, hbounds, ?_, htodo, ?_, ?_⟩
  · intro n
    exact ((cover_map Seg.span segs n).symm.trans (hchain.tiles n))
  · simp only [Writer.table, Writer.ofTable, hcompleted, htodo]
    omega
  · intro n
    exact cover_map Seg.writtenSpan segs n

/-! ### With a control file -/

variable {fileLen : UInt64}
variable {loaded : Option CtrlFile} {remain : UInt64} {now : Nat}

theorem acceptCtrl_some {sorted : List CtrlSeg}
    (h : acceptCtrl total fileLen loaded = some (base, sorted)) :
    ∃ c, loaded = some c ∧ ctrlUsable total fileLen c = true ∧ base = min c.base total ∧
      sorted = sortedSegs c ∧ sorted ≠ [] ∧ tiledFrom total base sorted = true := by
  unfold acceptCtrl at h
  split at h
  · cases h
  rename_i c
  split at h
  · rename_i hc
    dsimp only at h
    split at h
    · rename_i ht
      obtain ⟨rfl, rfl⟩ := Prod.mk.inj (Option.some.inj h)
      simp only [Bool.and_eq_true, Bool.not_eq_true', List.isEmpty_eq_false_iff] at ht
      exact ⟨c, rfl, hc, rfl, rfl, ht.1, ht.2⟩
    · cases h
  · cases h

/-- The bytes of a segment of the control file. -/
def CtrlSeg.span (s : CtrlSeg) : Span := ⟨s.s.toNat, s.e.toNat⟩

/-- The tiling check of `bootstrap` looks for a chain. -/
theorem tiledFrom_chain {segs : List CtrlSeg} :
    tiledFrom total base segs = true ↔ Chain base.toNat total.toNat (segs.map CtrlSeg.span) := by
  induction segs generalizing base with
  | nil =>
    simp only [tiledFrom, decide_eq_true_eq, List.map_nil, Chain]
    exact UInt64.toNat_inj.symm
  | cons s segs ih =>
    have hlt : s.s < s.e ↔ s.s.toNat < s.e.toNat := UInt64.lt_iff_toNat_lt
    simp only [tiledFrom, List.map_cons, Chain, CtrlSeg.span, ← hlt, UInt64.toNat_inj]
    by_cases hs : s.s = base
    · by_cases he : s.s < s.e
      · rw [if_neg (by simp [hs, hs ▸ he]), ih]
        simp [hs, hs ▸ he]
      · simp [he]
    · simp [hs]

theorem tiled_recovered (url : String) (opts : SplitOptions) (now : Nat) {sorted : List CtrlSeg}
    (h : acceptCtrl total fileLen loaded = some (base, sorted)) :
    Tiled (Writer.ofTable url total opts now base (sorted.map (recoverSeg now))).table
      ((sorted.map (recoverSeg now)).map Seg.writtenSpan) := by
  obtain ⟨c, -, -, hbase, -, -, htiled⟩ := acceptCtrl_some h
  have hchain := tiledFrom_chain.mp htiled
  refine tiled_ofTable url opts now ?_ ?_ ?_
  · rw [hbase, Word.toNat_min]
    exact Nat.min_le_right _ _
  · intro s hs
    obtain ⟨g, hg, rfl⟩ := List.mem_map.mp hs
    have hb := hchain.bounds g.span (List.mem_map_of_mem hg)
    simp only [CtrlSeg.span] at hb
    simp only [recoverSeg, Word.toNat_min, Word.toNat_sub (Nat.le_of_lt hb.2.1)]
    omega
  · rw [List.map_map]
    exact hchain

/-! ### Without one -/

/-- The products of the initial split stay below 2^64. -/
def splitFits (opts : SplitOptions) (total fileLen : UInt64) : Prop :=
  let remain := total - min fileLen total
  remain.toNat * initialCount opts remain < 18446744073709551616

theorem initialCount_bounds (opts : SplitOptions) (h : 0 < remain.toNat) :
    1 ≤ initialCount opts remain ∧ initialCount opts remain ≤ remain.toNat ∧
      initialCount opts remain ≤ 256 := by
  have h₁ := opts.connections_pos
  have h₂ := opts.connections_le
  have h₃ := opts.minSplit_ge
  have hdiv : (remain.toNat + opts.minSplitSize.toNat - 1) / opts.minSplitSize.toNat ≤
      remain.toNat := by
    rw [Nat.div_le_iff_le_mul_add_pred (by omega)]
    have := Nat.mul_le_mul_left remain.toNat (show 1 ≤ opts.minSplitSize.toNat by omega)
    rw [Nat.mul_comm opts.minSplitSize.toNat]
    omega
  simp only [initialCount]
  omega

/-- Wrapped or not, a cut lies between the base and the total. -/
theorem toNat_cutPoint {nseg i : Nat} (hn : 0 < nseg) (hn' : nseg ≤ 256) (hi : i ≤ nseg)
    (hfit : base.toNat + remain.toNat < 18446744073709551616) :
    (cutPoint base remain nseg i).toNat =
      base.toNat + remain.toNat * i % 18446744073709551616 / nseg := by
  have hoffset : (remain * UInt64.ofNat i / UInt64.ofNat nseg).toNat =
      remain.toNat * i % 18446744073709551616 / nseg := by
    rw [UInt64.toNat_div, UInt64.toNat_mul, UInt64.toNat_ofNat', UInt64.toNat_ofNat',
      Nat.mod_eq_of_lt (show i < _ by omega), Nat.mod_eq_of_lt (show nseg < _ by omega)]
  have hle : remain.toNat * i % 18446744073709551616 / nseg ≤ remain.toNat := by
    refine Nat.le_trans (Nat.div_le_div_right (Nat.mod_le _ _)) ?_
    refine Nat.le_trans (Nat.div_le_div_right (Nat.mul_le_mul_left remain.toNat hi)) ?_
    exact Nat.le_of_eq (Nat.mul_div_cancel _ hn)
  unfold cutPoint
  rw [Word.toNat_add, hoffset]
  rw [hoffset]
  omega

variable {opts : SplitOptions}

theorem chain_initialSegs (now : Nat) (hfit : splitFits opts total fileLen) :
    Chain (min fileLen total).toNat total.toNat
      ((initialSegs opts (min fileLen total) (total - min fileLen total) now).map Seg.span) := by
  have hbase : (min fileLen total).toNat ≤ total.toNat := by
    rw [Word.toNat_min]
    exact Nat.min_le_right _ _
  unfold splitFits at hfit
  dsimp only at hfit
  generalize min fileLen total = base at hfit hbase ⊢
  have hremain : (total - base).toNat = total.toNat - base.toNat := Word.toNat_sub hbase
  unfold initialSegs
  split
  · rename_i hpos
    replace hpos : 0 < (total - base).toNat := UInt64.lt_iff_toNat_lt.mp hpos
    obtain ⟨h₁, h₂, h₃⟩ := initialCount_bounds opts hpos
    dsimp only
    generalize initialCount opts (total - base) = nseg at hfit h₁ h₂ h₃ ⊢
    have := total.toNat_lt
    have hcut : ∀ i ≤ nseg, (cutPoint base (total - base) nseg i).toNat =
        base.toNat + (total - base).toNat * i / nseg := by
      intro i hi
      have hlt := Nat.mul_le_mul_left (total - base).toNat hi
      rw [toNat_cutPoint h₁ h₃ hi (by omega), Nat.mod_eq_of_lt (by omega)]
    have hchain := chain_range (c := fun i => (cutPoint base (total - base) nseg i).toNat)
      (n := nseg) (fun i hi => ?_)
    · rw [List.map_map]
      have hlast : (total - base).toNat * nseg / nseg = (total - base).toNat :=
        Nat.mul_div_cancel _ h₁
      have h0 : (cutPoint base (total - base) nseg 0).toNat = base.toNat := by
        rw [hcut 0 (Nat.zero_le _), Nat.mul_zero, Nat.zero_div, Nat.add_zero]
      have hn : (cutPoint base (total - base) nseg nseg).toNat = total.toNat := by
        rw [hcut nseg (Nat.le_refl _), hlast]
        omega
      simp only [h0, hn] at hchain
      exact hchain
    · -- each part has at least one byte
      rw [hcut i (Nat.le_of_lt hi), hcut (i + 1) hi, Nat.mul_succ]
      have hstep : (total - base).toNat * i / nseg + 1 ≤
          ((total - base).toNat * i + (total - base).toNat) / nseg := by
        rw [← Nat.add_div_right _ h₁]
        exact Nat.div_le_div_right (by omega)
      omega
  · rename_i hpos
    have h0 : ¬ 0 < (total - base).toNat := fun h => hpos (UInt64.lt_iff_toNat_lt.mpr h)
    show base.toNat = total.toNat
    omega

theorem initialSegs_written : ∀ s ∈ initialSegs opts base remain now, s.written = 0 := by
  intro s hs
  unfold initialSegs at hs
  split at hs
  · obtain ⟨i, -, rfl⟩ := List.mem_map.mp hs
    rfl
  · cases hs

theorem tiled_initial (url : String) (now : Nat) (hfit : splitFits opts total fileLen) :
    let base := min fileLen total
    let segs := initialSegs opts base (total - base) now
    Tiled (Writer.ofTable url total opts now base segs).table (segs.map Seg.writtenSpan) := by
  have hchain := chain_initialSegs now hfit
  refine tiled_ofTable url opts now ?_ ?_ hchain
  · rw [Word.toNat_min]
    exact Nat.min_le_right _ _
  · intro s hs
    rw [initialSegs_written s hs]
    exact Nat.le_of_lt (hchain.bounds s.span (List.mem_map_of_mem hs)).2.1

/-- When a product wraps, no segment reaches the last byte. -/
theorem initialSegs_short (hfit : ¬ splitFits opts total fileLen) :
    ∀ s ∈ initialSegs opts (min fileLen total) (total - min fileLen total) now,
      s.end_.toNat < total.toNat := by
  have hbase : (min fileLen total).toNat ≤ total.toNat := by
    rw [Word.toNat_min]
    exact Nat.min_le_right _ _
  unfold splitFits at hfit
  dsimp only at hfit
  generalize min fileLen total = base at hfit hbase ⊢
  have hremain : (total - base).toNat = total.toNat - base.toNat := Word.toNat_sub hbase
  intro s hs
  unfold initialSegs at hs
  split at hs
  · rename_i hpos
    replace hpos : 0 < (total - base).toNat := UInt64.lt_iff_toNat_lt.mp hpos
    obtain ⟨h₁, -, h₃⟩ := initialCount_bounds opts hpos
    obtain ⟨i, hi, rfl⟩ := List.mem_map.mp hs
    have hi := List.mem_range.mp hi
    generalize initialCount opts (total - base) = nseg at hfit h₁ h₃ hi ⊢
    have := total.toNat_lt
    have hlt : (total - base).toNat * (i + 1) % 18446744073709551616 / nseg <
        (total - base).toNat := by
      rw [Nat.div_lt_iff_lt_mul h₁]
      have := Nat.mod_lt ((total - base).toNat * (i + 1)) (show 18446744073709551616 > 0 by decide)
      omega
    show (cutPoint base (total - base) nseg (i + 1)).toNat < total.toNat
    rw [toNat_cutPoint h₁ h₃ (show i + 1 ≤ nseg from hi) (by omega)]
    omega
  · cases hs

/-! ## Every run -/

theorem start_tiled {url : String}
    (h : (acceptCtrl total fileLen loaded).isSome ∨ splitFits opts total fileLen) :
    let s := Session.start url total opts fileLen loaded now
    Tiled s.w.table s.file := by
  unfold Session.start bootstrap
  split
  · rename_i base sorted hacc
    exact tiled_recovered url opts now hacc
  · rename_i hacc
    rw [hacc] at h
    exact tiled_initial url now (h.resolve_left nofun)

/-- **Tiling and accounts.**  Every state of every run is exact, unless there is no usable
control file and a product of the initial split wraps; then the first state is not. -/
theorem run_exact (url : String) (total : UInt64) (opts : SplitOptions) (fileLen : UInt64)
    (loaded : Option CtrlFile) (now : Nat) :
    (∀ es t, Session.run (.start url total opts fileLen loaded now) es = some t → t.Exact) ↔
      ((acceptCtrl total fileLen loaded).isSome ∨ splitFits opts total fileLen) := by
  constructor
  · intro hall
    refine Classical.byContradiction fun hn => ?_
    rw [not_or] at hn
    have hacc : acceptCtrl total fileLen loaded = none := by simpa using hn.1
    have hexact := hall [] _ rfl
    unfold Session.start bootstrap at hexact
    rw [hacc] at hexact
    have htiles := hexact.tiles
    dsimp only [Session.ofWriter, Writer.ofTable] at htiles
    have hpos : (min fileLen total).toNat < total.toNat := by
      refine Nat.lt_of_not_le fun hle => hn.2 ?_
      unfold splitFits
      have h0 : (total - min fileLen total).toNat = 0 := by
        have hle' : (min fileLen total).toNat ≤ total.toNat := by
          rw [Word.toNat_min]
          exact Nat.min_le_right _ _
        rw [Word.toNat_sub hle']
        omega
      dsimp only
      rw [h0, Nat.zero_mul]
      decide
    -- the last byte is in no segment
    have hlast := htiles (total.toNat - 1)
    rw [Span.hits_of_mem ⟨by dsimp only; omega, by dsimp only; omega⟩] at hlast
    have hcover := cover_pos.mp (Nat.lt_of_lt_of_eq Nat.zero_lt_one hlast.symm)
    obtain ⟨p, hp, -, hlt⟩ := hcover
    obtain ⟨g, hg, rfl⟩ := List.mem_map.mp hp
    have := initialSegs_short hn.2 g (List.mem_filter.mp hg).1
    simp only [Seg.span] at hlt
    omega
  · intro h es t hrun
    have htiled := run_invariant (I := fun s => Tiled s.w.table s.file) (P := fun _ _ => True)
      (fun s e s' hs _ he => step_tiled hs he) (start_tiled h) (along_of_forall fun _ _ => trivial)
      hrun
    exact htiled.exact

/-- The largest options: 128 connections and parts of at least 1 GiB. -/
def widest : SplitOptions where
  connections := 128
  minSplitSize := 1073741824
  adaptive := none
  connections_pos := by decide
  connections_le := by decide
  minSplit_ge := by decide
  minSplit_le := by decide

/-- The download of 2^56 bytes: the last product of the initial split is 2^64. -/
def wrapped : Session := .start "http://host/file" 72057594037927936 widest 0 none 0

/-- The run counts as finished before its first byte, and its segments do not tile the file. -/
theorem wrapped_not_exact : wrapped.w.finished = true ∧ wrapped.file.all (fun p => p.lo = p.hi) ∧
    ¬ wrapped.Exact := by
  refine ⟨by decide +kernel, by decide +kernel, fun h => ?_⟩
  have htiles := h.tiles 72057594037927935
  revert htiles
  decide +kernel

end XferRust.Split
