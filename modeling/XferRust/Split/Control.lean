import XferRust.Split.Accounts

/-! # The control file

What `bootstrap` may conclude from a control file it accepts, and that it accepts what
`serialize_ctrl` writes: the segments that hold bytes tile the missing part of the file, so in
ascending order they are the chain that `bootstrap` asks for, and the watermarks come back as they
were.  JSON is a parameter; all that is asked of it is that it reads back what it wrote.
-/
namespace XferRust.Split
open Tiling StepRun

/-! ## What an accepted control file says -/

/-- The segments lie apart and inside `[base, total)`, the watermarks inside the segments, and the
counters are what they are without wrapping. -/
structure Writer.Resumed (w : Writer) : Prop where
  inside : ∀ g ∈ w.segs, w.base.toNat ≤ g.start.toNat ∧ g.start.toNat < g.end_.toNat ∧
    g.end_.toNat ≤ w.total.toNat
  disjoint : Tiles w.base.toNat w.total.toNat (w.segs.map Seg.span)
  written : ∀ g ∈ w.segs, g.start.toNat + g.written.toNat ≤ g.end_.toNat
  remaining : ∀ g ∈ w.segs, g.remaining.toNat = g.left
  todo : w.todo.toNat = Tiling.total Seg.left w.segs
  completed : w.completed.toNat = w.base.toNat + Tiling.total (fun g => g.written.toNat) w.segs

/-- Every byte counted as downloaded is a byte of the partial file. -/
structure Writer.Backed (w : Writer) (fileLen : UInt64) : Prop where
  base : w.base.toNat ≤ fileLen.toNat
  reached : ∀ g ∈ w.segs, g.written ≠ 0 → g.start.toNat + g.written.toNat ≤ fileLen.toNat
  counted : ∀ n, n < w.base.toNat ∨ 0 < cover (w.segs.map Seg.writtenSpan) n → n < fileLen.toNat

section Accepted
variable {total fileLen base : UInt64} {loaded : Option CtrlFile} {sorted : List CtrlSeg}

theorem ofTable_resumed (url : String) (opts : SplitOptions) (now : Nat)
    (hacc : acceptCtrl total fileLen loaded = some (base, sorted)) :
    (Writer.ofTable url total opts now base (sorted.map (recoverSeg now))).Resumed := by
  have htiled := tiled_recovered url opts now hacc
  obtain ⟨c, -, -, -, -, -, hchain⟩ := acceptCtrl_some hacc
  replace hchain := tiledFrom_chain.mp hchain
  have hspans : (sorted.map (recoverSeg now)).map Seg.span = sorted.map CtrlSeg.span := by
    rw [List.map_map]
    rfl
  rw [← hspans] at hchain
  generalize sorted.map (recoverSeg now) = segs at htiled hchain
  have hbounds : ∀ g ∈ segs, g.start.toNat + g.written.toNat ≤ g.end_.toNat := htiled.bounds
  refine ⟨fun g hg => hchain.bounds g.span (List.mem_map_of_mem hg), hchain.tiles, hbounds,
    fun g hg => Tiled.toNat_remaining (hbounds g hg), htiled.todo, ?_⟩
  -- the sizes of the segments are what is written and what is left
  have hsize := hchain.total_size
  rw [total_map] at hsize
  have hsize' : Tiling.total (fun g : Seg => g.end_.toNat - g.start.toNat) segs + base.toNat =
      total.toNat := hsize
  have hsub := total_sub (f := fun g : Seg => g.end_.toNat - g.start.toNat)
    (g := fun g => g.written.toNat) fun g hg => by
      have := hbounds g hg
      omega
  have hleft : Tiling.total (fun g => g.end_.toNat - g.start.toNat - g.written.toNat) segs =
      Tiling.total Seg.left segs := total_congr fun g _ => Nat.sub_sub _ _ _
  have htodo : (Writer.ofTable url total opts now base segs).todo.toNat =
      Tiling.total Seg.left segs := htiled.todo
  have hcompleted : (Writer.ofTable url total opts now base segs).completed.toNat +
      (Writer.ofTable url total opts now base segs).todo.toNat = total.toNat := htiled.completed
  show _ = base.toNat + Tiling.total (fun g => g.written.toNat) segs
  omega

/-- The check on the watermarks, where the sum in it does not wrap. -/
theorem recovered_reached {now : Nat}
    (hacc : acceptCtrl total fileLen loaded = some (base, sorted)) {s : CtrlSeg} (hs : s ∈ sorted)
    (hwrap : s.s.toNat + s.w.toNat < 18446744073709551616) (hw : (recoverSeg now s).written ≠ 0) :
    s.s.toNat + (recoverSeg now s).written.toNat ≤ fileLen.toNat := by
  obtain ⟨c, -, husable, -, hsorted, -⟩ := acceptCtrl_some hacc
  have hmem : s ∈ c.segs := by
    rw [hsorted] at hs
    exact (List.mem_filter.mp ((StableSort.mem_sortByKey _).mp hs)).1
  have hcheck := (List.all_eq_true.mp (Bool.and_eq_true_iff.mp husable).2) s hmem
  simp only [Bool.or_eq_true, decide_eq_true_eq] at hcheck
  have hmin : (recoverSeg now s).written.toNat = min s.w.toNat (s.e - s.s).toNat :=
    Word.toNat_min s.w (s.e - s.s)
  rcases hcheck with h0 | hle
  · refine absurd (UInt64.toNat_inj.mp ?_) hw
    rw [hmin, h0]
    exact Nat.zero_min _
  · rw [UInt64.le_iff_toNat_le, Word.toNat_add hwrap] at hle
    omega

/-- **An accepted control file.**  Its segments are in order and the counters are exact; and what
is counted as downloaded is in the partial file, when the base is and no watermark wraps. -/
theorem bootstrap_resumed (url : String) (opts : SplitOptions) (now : Nat)
    (hacc : acceptCtrl total fileLen loaded = some (base, sorted)) :
    (bootstrap url total opts fileLen loaded now).Resumed ∧
      (base.toNat ≤ fileLen.toNat →
        (∀ s ∈ sorted, s.s.toNat + s.w.toNat < 18446744073709551616) →
        (bootstrap url total opts fileLen loaded now).Backed fileLen) := by
  simp only [bootstrap, hacc]
  refine ⟨ofTable_resumed url opts now hacc, fun hbase hwrap => ?_⟩
  have hreached : ∀ g ∈ sorted.map (recoverSeg now), g.written ≠ 0 →
      g.start.toNat + g.written.toNat ≤ fileLen.toNat := by
    intro g hg hw
    obtain ⟨s, hs, rfl⟩ := List.mem_map.mp hg
    exact recovered_reached hacc hs (hwrap s hs) hw
  refine ⟨hbase, hreached, ?_⟩
  rintro n (hn | hn)
  · exact Nat.lt_of_lt_of_le hn hbase
  · obtain ⟨p, hp, hlo, hhi⟩ := cover_pos.mp hn
    obtain ⟨g, hg, rfl⟩ := List.mem_map.mp hp
    simp only [Seg.writtenSpan] at hlo hhi
    refine Nat.lt_of_lt_of_le hhi (hreached g hg fun h0 => ?_)
    rw [h0] at hhi
    exact absurd hhi (Nat.not_lt.mpr hlo)

end Accepted

/-- The control file of a fresh download of 200 bytes in two segments. -/
def farFile : CtrlFile where
  v := 1
  total := 200
  base := 0
  url := "http://host/file"
  segs := [⟨0, 0, 100⟩, ⟨100, 0, 200⟩]

/-- With an empty partial file it is accepted: the second segment starts beyond the file. -/
theorem farFile_accepted : ∃ base sorted, acceptCtrl 200 0 (some farFile) = some (base, sorted) ∧
    ∃ s ∈ sorted, ¬ s.s.toNat + s.w.toNat ≤ (0 : UInt64).toNat :=
  ⟨0, [⟨0, 0, 100⟩, ⟨100, 0, 200⟩], by decide, ⟨100, 0, 200⟩, by decide, by decide⟩

/-- A control file with three bytes of the second segment. -/
def nearFile : CtrlFile := { farFile with segs := [⟨100, 3, 200⟩, ⟨0, 0, 100⟩] }

/-- With a partial file that has these bytes, every byte that counts as downloaded is there. -/
theorem nearFile_backed : (bootstrap "http://host/file" 200 widest 103 (some nearFile) 0).Backed 103 :=
  (bootstrap_resumed "http://host/file" widest 0
    (show acceptCtrl 200 103 (some nearFile) = some (0, [⟨0, 0, 100⟩, ⟨100, 3, 200⟩]) by decide)).2
    (by decide) (by decide)

/-! ## Round trip -/

/-- The entry of a segment in the control file. -/
def Seg.entry (s : Seg) : CtrlSeg := ⟨s.start, s.written, s.end_⟩

/-- The segments that hold bytes, which are the ones the control file lists. -/
def Writer.listed (w : Writer) : List Seg := w.segs.filter fun s => s.end_ > s.start

theorem sortedSegs_serializeCtrl (w : Writer) :
    (sortedSegs w.serializeCtrl).Perm (w.listed.map Seg.entry) := by
  refine (StableSort.sortByKey_perm _ _).trans (List.Perm.of_eq ?_)
  refine List.filter_eq_self.mpr fun s hs => ?_
  obtain ⟨g, hg, rfl⟩ := List.mem_map.mp hs
  exact (List.mem_filter.mp hg).2

section RoundTrip
variable {w : Writer} {file : List Span}

/-- In ascending order, the listed segments are the chain `bootstrap` asks for. -/
theorem chain_serializeCtrl (h : Tiled w.table file) :
    Chain w.base.toNat w.total.toNat ((sortedSegs w.serializeCtrl).map CtrlSeg.span) := by
  have hperm := sortedSegs_serializeCtrl w
  have hlisted : ∀ s ∈ sortedSegs w.serializeCtrl, s.s.toNat < s.e.toNat := by
    intro s hs
    obtain ⟨g, hg, rfl⟩ := List.mem_map.mp (hperm.mem_iff.mp hs)
    exact UInt64.lt_iff_toNat_lt.mp (of_decide_eq_true (List.mem_filter.mp hg).2)
  have htiles : Tiles w.base.toNat w.total.toNat ((w.listed.map Seg.entry).map CtrlSeg.span) := by
    intro n
    rw [List.map_map, cover_map]
    have hfilter := total_filter (f := fun g => g.span.hits n) (p := fun g => g.end_ > g.start)
      fun g (_ : g ∈ w.segs) hg => hits_of_empty (of_decide_eq_false hg) n
    exact hfilter.trans (h.tiles n)
  refine (htiles.perm (hperm.map CtrlSeg.span).symm).chain h.base_le ?_ ?_
  · intro p hp
    obtain ⟨s, hs, rfl⟩ := List.mem_map.mp hp
    exact hlisted s hs
  · exact List.pairwise_map.mpr (StableSort.sortByKey_sorted _ _)

/-- A segment comes back with the watermark it had. -/
theorem recoverSeg_entry {g : Seg} (now : Nat)
    (hg : g.start.toNat + g.written.toNat ≤ g.end_.toNat) :
    (recoverSeg now g.entry).writtenSpan = g.writtenSpan ∧
      (recoverSeg now g.entry).left = g.left := by
  have hmin : min g.written (g.end_ - g.start) = g.written := by
    refine UInt64.toNat_inj.mp ?_
    rw [Word.toNat_min, Word.toNat_sub (by omega)]
    omega
  simp only [recoverSeg, Seg.entry, Seg.writtenSpan, Seg.left, hmin, and_self]

/-- A sum over the table that `bootstrap` makes of the control file. -/
theorem total_recovered (h : Tiled w.table file) (now : Nat) {f : Seg → Nat}
    (hf : ∀ g : Seg, g.start.toNat + g.written.toNat ≤ g.end_.toNat →
      f (recoverSeg now g.entry) = f g)
    (hempty : ∀ g : Seg, g.start.toNat + g.written.toNat ≤ g.end_.toNat → ¬ g.start < g.end_ →
      f g = 0) :
    total f ((sortedSegs w.serializeCtrl).map (recoverSeg now)) = total f w.segs := by
  have hperm := (sortedSegs_serializeCtrl w).map (recoverSeg now)
  rw [total_perm hperm, List.map_map, total_map]
  calc total (fun g => f (recoverSeg now g.entry)) w.listed
      = total f w.listed := total_congr fun g hg => hf g (h.bounds g (List.mem_filter.mp hg).1)
    _ = total f w.segs := total_filter fun g hg hp =>
        hempty g (h.bounds g hg) (of_decide_eq_false hp)

/-- **Acceptance.**  What `serialize_ctrl` writes is accepted next to a partial file that reaches
the watermarks, unless nothing is missing from the base on. -/
theorem acceptCtrl_serializeCtrl (h : Tiled w.table file) (hmissing : w.base.toNat < w.total.toNat)
    {fileLen : UInt64}
    (hlen : ∀ s ∈ w.serializeCtrl.segs, s.w ≠ 0 → s.s.toNat + s.w.toNat ≤ fileLen.toNat) :
    acceptCtrl w.total fileLen (some w.serializeCtrl) =
      some (w.base, sortedSegs w.serializeCtrl) := by
  have hchain := chain_serializeCtrl h
  have hbase : min w.serializeCtrl.base w.total = w.base := by
    refine UInt64.toNat_inj.mp ?_
    rw [Word.toNat_min]
    exact Nat.min_eq_left (Nat.le_of_lt hmissing)
  have hne : sortedSegs w.serializeCtrl ≠ [] := by
    intro hnil
    rw [hnil] at hchain
    exact Nat.ne_of_lt hmissing hchain
  have husable : ctrlUsable w.total fileLen w.serializeCtrl = true := by
    simp only [ctrlUsable, Bool.and_eq_true, List.all_eq_true, Bool.or_eq_true, decide_eq_true_eq]
    refine ⟨rfl, fun s hs => ?_⟩
    by_cases hw : s.w = 0
    · exact .inl hw
    · have := hlen s hs hw
      have := fileLen.toNat_lt
      refine .inr (UInt64.le_iff_toNat_le.mpr ?_)
      rw [Word.toNat_add (by omega)]
      omega
  simp only [acceptCtrl, husable, if_true, hbase, tiledFrom_chain.mpr hchain, Bool.and_true]
  rw [if_pos]
  simpa using hne

end RoundTrip

/-- A run that goes on from `nearFile`. -/
def near : Session := .start "http://host/file" 200 widest 103 (some nearFile) 0

/-- Its control file as text. -/
def nearJson : List UInt8 :=
  ("\x7b\"v\":1,\"total\":200,\"base\":0,\"url\":\"http://host/file\",\"segs\":[" ++
    "\x7b\"s\":0,\"w\":0,\"e\":100\x7d,\x7b\"s\":100,\"w\":3,\"e\":200\x7d]\x7d").toUTF8.toList

/-- The text read back: in ascending order now. -/
def nearParsed : CtrlFile := { farFile with segs := [⟨0, 0, 100⟩, ⟨100, 3, 200⟩] }

/-- A run that finds the whole file: it has no segments. -/
def whole : Session := .start "http://host/file" 3 widest 3 none 0

end XferRust.Split
