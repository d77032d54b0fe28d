import XferRust.Split.Control
import XferRust.Split.CtrlSync

/-! # The control file tells of durable bytes only

A snapshot goes through three states: its bytes are in the data file when it is taken (`Carried`
by the data), they are durable once an `fsync` that began later has ended (`Carried` by the
durable bytes), and only then does the temporary file with the snapshot replace the control file.
The writer thread keeps out of the sync thread's way by the barrier: behind it the channel is
empty and the sync thread idle, so nobody else touches the temporary file, and after the end of
`finish` nobody touches the control file.
-/
namespace XferRust.Split
open Tiling StepRun

/-- The control file records byte `n` as written. -/
def CtrlFile.Records (c : CtrlFile) (n : Nat) : Prop :=
  n < c.base.toNat ∨ ∃ s ∈ c.segs, s.s.toNat ≤ n ∧ n < s.s.toNat + s.w.toNat

/-- Every byte the snapshot records is among the spans. -/
structure CtrlFile.Carried (c : CtrlFile) (base : UInt64) (spans : List Span) : Prop where
  fits : ∀ s ∈ c.segs, s.s.toNat + s.w.toNat < 18446744073709551616
  base : c.base = base
  held : ∀ n, c.Records n → Holds spans n

variable {c : CtrlFile}
variable {base total : UInt64} {d : Disk} {now : Nat}

theorem CtrlFile.Carried.mono {xs ys : List Span} (h : c.Carried base xs)
    (hle : ∀ n, Holds xs n → Holds ys n) : c.Carried base ys :=
  ⟨h.fits, h.base, fun n hn => hle n (h.held n hn)⟩

/-! ## The table's bytes are in the file -/

/-- The bytes below the watermarks, and those below the base, are in the data file. -/
structure Covered (b : Table) (data : List Span) : Prop where
  fits : ∀ s ∈ b.segs, s.start.toNat + s.written.toNat < 18446744073709551616
  held : ∀ s ∈ b.segs, ∀ n, s.start.toNat ≤ n → n < s.start.toNat + s.written.toNat →
    Holds data n
  base : ∀ n, n < b.base.toNat → Holds data n

theorem covered_ledger : Ledger Covered where
  cut := by
    intro b file sid s k t now h hs _
    refine ⟨fun g hg => ?_, fun g hg n h₁ h₂ => ?_, h.base⟩
    · rcases List.mem_append.mp hg with hg | hg
      · rcases List.mem_or_eq_of_mem_set hg with hg | rfl
        · exact h.fits g hg
        · exact h.fits s (List.mem_of_getElem? hs)
      · obtain rfl := List.mem_singleton.mp hg
        exact (s.rest k now).start.toNat_lt
    · rcases List.mem_append.mp hg with hg | hg
      · rcases List.mem_or_eq_of_mem_set hg with hg | rfl
        · exact h.held g hg n h₁ h₂
        · exact h.held s (List.mem_of_getElem? hs) n h₁ h₂
      · obtain rfl := List.mem_singleton.mp hg
        exact absurd h₂ (Nat.not_lt.mpr h₁)
  same := by
    intro b b' file h hb
    have hold : ∀ g ∈ b'.segs, ∃ g₀ ∈ b.segs, g.start = g₀.start ∧ g.written = g₀.written := by
      intro g hg
      have hmem : g.extent ∈ b.segs.map Seg.extent := hb.segs ▸ List.mem_map_of_mem hg
      obtain ⟨g₀, hg₀, he⟩ := List.mem_map.mp hmem
      exact ⟨g₀, hg₀, (congrArg Seg.start he).symm, (congrArg Seg.written he).symm⟩
    refine ⟨fun g hg => ?_, fun g hg => ?_, fun n hn => h.base n (hb.base ▸ hn)⟩
    · obtain ⟨g₀, hg₀, hstart, hwritten⟩ := hold g hg
      rw [hstart, hwritten]
      exact h.fits g₀ hg₀
    · obtain ⟨g₀, hg₀, hstart, hwritten⟩ := hold g hg
      rw [hstart, hwritten]
      exact h.held g₀ hg₀
  land := by
    intro b file sid s now offset n h hs hoffset _ hat hend
    have hlt := s.end_.toNat_lt
    have hwritten : (s.land n now).written.toNat = s.written.toNat + n.toNat := by
      simp only [Seg.land]
      exact Word.toNat_add (by omega)
    refine ⟨fun g hg => ?_, fun g hg m h₁ h₂ => ?_, fun m hm =>
      holds_append.mpr (.inl (h.base m hm))⟩
    · rcases List.mem_or_eq_of_mem_set hg with hg | rfl
      · exact h.fits g hg
      · rw [hwritten]
        show s.start.toNat + _ < _
        omega
    · rw [holds_append, holds_singleton]
      rcases List.mem_or_eq_of_mem_set hg with hg | rfl
      · exact .inl (h.held g hg m h₁ h₂)
      · -- below the old watermark, or among the new bytes
        rw [hwritten] at h₂
        replace h₁ : s.start.toNat ≤ m := h₁
        replace h₂ : m < s.start.toNat + (s.written.toNat + n.toNat) := h₂
        by_cases hm : m < s.start.toNat + s.written.toNat
        · exact .inl (h.held s (List.mem_of_getElem? hs) m h₁ hm)
        · exact .inr ⟨by dsimp only; omega, by dsimp only; omega⟩

/-- A snapshot of the table is carried by the data. -/
theorem Covered.carried {w : Writer} {data : List Span} (h : Covered w.table data) :
    w.serializeCtrl.Carried w.base data := by
  refine ⟨fun s hs => ?_, rfl, fun n hn => ?_⟩
  · obtain ⟨g, hg, rfl⟩ := List.mem_map.mp hs
    exact h.fits g (List.mem_filter.mp hg).1
  · rcases hn with hn | ⟨s, hs, h₁, h₂⟩
    · exact h.base n hn
    · obtain ⟨g, hg, rfl⟩ := List.mem_map.mp hs
      exact h.held g (List.mem_filter.mp hg).1 n h₁ h₂

/-! ## The disk -/

/-- What a control file on the disk records was durable, and is, or else lies beyond the end of a
data file that has become shorter since. -/
structure CtrlFile.Kept (c : CtrlFile) (total : UInt64) (d : Disk) : Prop where
  fits : ∀ s ∈ c.segs, s.s.toNat + s.w.toNat < 18446744073709551616
  base_total : c.base.toNat ≤ total.toNat
  base_len : c.base.toNat ≤ d.len.toNat
  synced : ∀ n, c.Records n → Holds d.synced n
  durable : ∀ n, c.Records n → Holds d.durable n ∨ (d.shortened = true ∧ d.len.toNat ≤ n)

structure Disk.Sound (d : Disk) (total : UInt64) : Prop where
  durable_data : ∀ n, Holds d.durable n → Holds d.data n
  durable_synced : ∀ n, Holds d.durable n → Holds d.synced n
  data_len : ∀ n, Holds d.data n → n < d.len.toNat
  whole : d.ctrl ≠ some .partly
  ctrl : ∀ c, d.ctrl = some (.snapshot c) → c.Kept total d

theorem le_foldl_max (spans : List Span) (len : UInt64) :
    len.toNat ≤ (spans.foldl (fun len s => max len (UInt64.ofNat s.hi)) len).toNat ∧
      ∀ s ∈ spans, s.hi < 18446744073709551616 →
        s.hi ≤ (spans.foldl (fun len s => max len (UInt64.ofNat s.hi)) len).toNat := by
  induction spans generalizing len with
  | nil => exact ⟨Nat.le_refl _, nofun⟩
  | cons s spans ih =>
    obtain ⟨hlen, hrest⟩ := ih (max len (UInt64.ofNat s.hi))
    rw [Word.toNat_max] at hlen
    refine ⟨by rw [List.foldl_cons]; omega, fun t ht hfit => ?_⟩
    rw [List.foldl_cons]
    rcases List.mem_cons.mp ht with rfl | ht
    · rw [UInt64.toNat_ofNat', Nat.mod_eq_of_lt hfit] at hlen
      omega
    · exact hrest t ht hfit

namespace Disk.Sound
variable {d : Disk} {total : UInt64}

/-- An `fsync` that began when `data` was in the file. -/
theorem sync (h : d.Sound total) {data : List Span} (hle : ∀ n, Holds data n → Holds d.data n) :
    (d.sync data).Sound total := by
  refine ⟨fun n hn => ?_, fun n hn => ?_, h.data_len, h.whole, fun c hc => ?_⟩
  · rcases holds_append.mp hn with hn | hn
    · exact h.durable_data n hn
    · exact hle n hn
  · rcases holds_append.mp hn with hn | hn
    · exact holds_append.mpr (.inl (h.durable_synced n hn))
    · exact holds_append.mpr (.inr hn)
  · have hk := h.ctrl c hc
    refine ⟨hk.fits, hk.base_total, hk.base_len, fun n hn => holds_append.mpr (.inl (hk.synced n hn)),
      fun n hn => ?_⟩
    rcases hk.durable n hn with hd | hs
    · exact .inl (holds_append.mpr (.inl hd))
    · exact .inr hs

/-- A cut, or an extension of a file that has not become shorter. -/
theorem setLen (h : d.Sound total) {len : UInt64}
    (hlen : len.toNat ≤ d.len.toNat ∨ d.shortened = false)
    (hbase : ∀ c, d.ctrl = some (.snapshot c) → c.base.toNat ≤ len.toNat) :
    (d.setLen len).Sound total := by
  refine ⟨fun n hn => ?_, fun n hn => ?_, fun n hn => ?_, h.whole, fun c hc => ?_⟩
  · obtain ⟨hn, hlt⟩ := holds_clip.mp hn
    exact holds_clip.mpr ⟨h.durable_data n hn, hlt⟩
  · exact h.durable_synced n (holds_clip.mp hn).1
  · exact (holds_clip.mp hn).2
  · have hk := h.ctrl c hc
    refine ⟨hk.fits, hk.base_total, hbase c hc, hk.synced, fun n hn => ?_⟩
    simp only [Disk.setLen, holds_clip, Bool.or_eq_true, decide_eq_true_eq]
    rcases hk.durable n hn with hd | ⟨hs, hle⟩
    · by_cases hlt : n < len.toNat
      · exact .inl ⟨hd, hlt⟩
      · have := h.data_len n (h.durable_data n hd)
        exact .inr ⟨.inr (UInt64.lt_iff_toNat_lt.mpr (by omega)), by omega⟩
    · rcases hlen with hlen | hfalse
      · exact .inr ⟨.inl hs, by omega⟩
      · rw [hfalse] at hs
        cases hs

/-- The temporary file with a snapshot of durable bytes replaces the control file. -/
theorem rename (h : d.Sound total) {c : CtrlFile} {base : UInt64} (hc : c.Carried base d.durable)
    (htotal : base.toNat ≤ total.toNat) (hlen : base.toNat ≤ d.len.toNat) :
    Disk.Sound { d with ctrl := some (.snapshot c), tmp := none, shortened := false } total := by
  refine ⟨h.durable_data, h.durable_synced, h.data_len, nofun, fun c' hc' => ?_⟩
  obtain rfl := Content.snapshot.inj (Option.some.inj hc')
  exact ⟨hc.fits, hc.base ▸ htotal, hc.base ▸ hlen, fun n hn => h.durable_synced n (hc.held n hn),
    fun n hn => .inl (hc.held n hn)⟩

/-- A step that leaves the data file and the control file alone. -/
theorem setTmp (h : d.Sound total) (tmp : Option Content) :
    Disk.Sound { d with tmp := tmp } total :=
  ⟨h.durable_data, h.durable_synced, h.data_len, h.whole, fun c hc =>
    ⟨(h.ctrl c hc).fits, (h.ctrl c hc).base_total, (h.ctrl c hc).base_len, (h.ctrl c hc).synced,
      (h.ctrl c hc).durable⟩⟩

theorem remove (h : d.Sound total) : Disk.Sound { d with ctrl := none } total :=
  ⟨h.durable_data, h.durable_synced, h.data_len, nofun, nofun⟩

/-- Writes below 2^64 to a file that has not become shorter. -/
theorem write (h : d.Sound total) {spans : List Span} (hshort : spans ≠ [] → d.shortened = false)
    (hfit : ∀ s ∈ spans, s.hi < 18446744073709551616) : (d.write spans).Sound total := by
  obtain ⟨hlen, hspans⟩ := le_foldl_max spans d.len
  refine ⟨fun n hn => holds_append.mpr (.inl (h.durable_data n hn)), h.durable_synced,
    fun n hn => ?_, h.whole, fun c hc => ?_⟩
  · simp only [Disk.write] at hn ⊢
    rcases holds_append.mp hn with hn | ⟨s, hs, -, hhi⟩
    · exact Nat.lt_of_lt_of_le (h.data_len n hn) hlen
    · exact Nat.lt_of_lt_of_le hhi (hspans s hs (hfit s hs))
  · have hk := h.ctrl c hc
    refine ⟨hk.fits, hk.base_total, Nat.le_trans hk.base_len hlen, hk.synced, fun n hn => ?_⟩
    rcases hk.durable n hn with hd | ⟨hs, hle⟩
    · exact .inl hd
    · cases spans with
      | nil => exact .inr ⟨hs, hle⟩
      | cons x xs =>
        rw [hshort nofun] at hs
        cases hs

/-- A crash. -/
theorem crash (h : d.Sound total) {len : UInt64} (hlen : d.survives len = true) :
    Disk.Sound { d with data := d.durable, len } total := by
  simp only [Disk.survives, Bool.and_eq_true, List.all_eq_true, Bool.or_eq_true,
    decide_eq_true_eq] at hlen
  obtain ⟨hle, hall⟩ := hlen
  rw [UInt64.le_iff_toNat_le] at hle
  have hin : ∀ n, Holds d.durable n → n < len.toNat := by
    rintro n ⟨s, hs, hlo, hhi⟩
    rcases hall s hs with he | he
    · omega
    · omega
  refine ⟨fun n hn => hn, h.durable_synced, hin, h.whole, fun c hc => ?_⟩
  have hk := h.ctrl c hc
  refine ⟨hk.fits, hk.base_total, ?_, hk.synced, fun n hn => ?_⟩
  · -- the last byte below the base is recorded, so it has survived
    by_cases h0 : c.base.toNat = 0
    · show c.base.toNat ≤ len.toNat
      omega
    · rcases hk.durable (c.base.toNat - 1) (.inl (by omega)) with hd | ⟨-, hbeyond⟩
      · have := hin _ hd
        show c.base.toNat ≤ len.toNat
        omega
      · have := hk.base_len
        omega
  · rcases hk.durable n hn with hd | ⟨hs, hbeyond⟩
    · exact .inl hd
    · exact .inr ⟨hs, Nat.le_trans hle hbeyond⟩

end Disk.Sound

/-! ## A run -/

/-- Behind the barrier. -/
def WriterThread.alone : WriterThread → Bool
  | .fsync _ | .replacing .. | .setLen _ | .remove _ | .done (some _) => true
  | _ => false

/-- Up to the first forced save. -/
def WriterThread.booting : WriterThread → Bool
  | .barrier .boot | .waiting .boot | .fsync .boot | .replacing .boot .. => true
  | _ => false

/-- Before the end of the download has cut the data file. -/
def WriterThread.reading : WriterThread → Bool
  | .remove _ | .done _ => false
  | _ => true

/-- What the sync thread holds is carried by the data, and after its `fsync` by durable bytes. -/
def SyncThread.Sound (base : UInt64) (d : Disk) : SyncThread → Prop
  | .idle => True
  | .fsync c => c.Carried base d.data
  | .fsyncing c data => c.Carried base data ∧ ∀ n, Holds data n → Holds d.data n
  | .replacing c k => c.Carried base d.durable ∧ (k = .rename → d.tmp = some (.snapshot c))

structure Running.Sound (r : Running) (d : Disk) (total : UInt64) : Prop where
  whole : r.session.w.total = total
  base_total : r.session.w.base.toNat ≤ total.toNat
  base_len : r.session.w.base.toNat ≤ d.len.toNat
  ctrl_base : ∀ c, d.ctrl = some (.snapshot c) → c.base.toNat ≤ r.session.w.base.toNat
  covered : r.writer.reading = true → Covered r.session.w.table d.data
  steady : r.writer.reading = true → r.writer.booting = false → d.shortened = false
  alone : r.writer.alone = true → r.chan = none ∧ r.sync = .idle
  replacing : ∀ task c k, r.writer = .replacing task c k →
    c.Carried r.session.w.base d.durable ∧ (k = .rename → d.tmp = some (.snapshot c))
  chan : ∀ c, r.chan = some (.job c) → c.Carried r.session.w.base d.data
  sync : r.sync.Sound r.session.w.base d

structure Store.Sound (s : Store) (total : UInt64) : Prop where
  disk : s.disk.Sound total
  run : ∀ r, s.run = some r → r.Sound s.disk total

/-! ### The start of a run -/

theorem covered_recovered {sorted : List CtrlSeg} (hd : d.Sound total) (hk : c.Kept total d)
    (hacc : acceptCtrl total d.len (some c) = some (base, sorted)) (url : String)
    (opts : SplitOptions) (now : Nat) :
    base = c.base ∧
      Covered (Writer.ofTable url total opts now base (sorted.map (recoverSeg now))).table
        d.data := by
  obtain ⟨c', hc', -, hbase, hsorted, -⟩ := acceptCtrl_some hacc
  obtain rfl := Option.some.inj hc'
  have hbase' : base = c.base := by
    refine UInt64.toNat_inj.mp ?_
    rw [hbase, Word.toNat_min]
    exact Nat.min_eq_left hk.base_total
  -- what is recorded, and within the file, is there
  have hthere : ∀ n, c.Records n → n < d.len.toNat → Holds d.data n := by
    intro n hn hlt
    rcases hk.durable n hn with hdur | ⟨-, hbeyond⟩
    · exact hd.durable_data n hdur
    · omega
  have hmem : ∀ s ∈ sorted, s ∈ c.segs := by
    intro s hs
    rw [hsorted] at hs
    exact (List.mem_filter.mp ((StableSort.mem_sortByKey _).mp hs)).1
  have hmin : ∀ s : CtrlSeg, (recoverSeg now s).written.toNat ≤ s.w.toNat := by
    intro s
    have : (recoverSeg now s).written.toNat = min s.w.toNat (s.e - s.s).toNat :=
      Word.toNat_min s.w (s.e - s.s)
    omega
  refine ⟨hbase', fun g hg => ?_, fun g hg n h₁ h₂ => ?_, fun n hn => ?_⟩
  · obtain ⟨s, hs, rfl⟩ := List.mem_map.mp hg
    have := hk.fits s (hmem s hs)
    have := hmin s
    show s.s.toNat + _ < _
    omega
  · obtain ⟨s, hs, rfl⟩ := List.mem_map.mp hg
    have hw : (recoverSeg now s).written ≠ 0 := by
      intro h0
      rw [h0] at h₂
      exact absurd h₂ (Nat.not_lt.mpr h₁)
    have := recovered_reached hacc hs (hk.fits s (hmem s hs)) hw
    have := hmin s
    replace h₂ : n < s.s.toNat + (recoverSeg now s).written.toNat := h₂
    exact hthere n (.inr ⟨s, hmem s hs, h₁, by omega⟩) (by omega)
  · have := hk.base_len
    replace hn : n < base.toNat := hn
    rw [hbase'] at hn
    exact hthere n (.inl hn) (by omega)

theorem load_some {ctrl : Option Content} (h : Content.load ctrl = some c) :
    ctrl = some (.snapshot c) := by
  unfold Content.load at h
  split at h
  · split at h
    · rw [Option.some.inj h]
    · cases h
  · cases h

/-- The table of a run without a control file: the file is one prefix. -/
theorem covered_initial (total len : UInt64) (url : String) (opts : SplitOptions) (now : Nat) :
    Covered (Writer.ofTable url total opts now (min len total)
        (initialSegs opts (min len total) (total - min len total) now)).table
      [⟨0, (min len total).toNat⟩] := by
  refine ⟨fun g hg => ?_, fun g hg n h₁ h₂ => ?_, fun n hn =>
    holds_singleton.mpr ⟨Nat.zero_le _, hn⟩⟩
  · rw [initialSegs_written g hg]
    exact g.start.toNat_lt
  · rw [initialSegs_written g hg] at h₂
    exact absurd h₂ (Nat.not_lt.mpr h₁)

theorem bootstrapLen_of_none {len : UInt64} {loaded : Option CtrlFile}
    (hacc : acceptCtrl total len loaded = none) :
    bootstrapLen total len loaded = min len total := by
  have hmin := Word.toNat_min len total
  refine UInt64.toNat_inj.mp ?_
  simp only [bootstrapLen, hacc]
  rw [hmin]
  split
  · rename_i hlt
    have := UInt64.lt_iff_toNat_lt.mp hlt
    omega
  · rename_i hlt
    have := UInt64.le_iff_toNat_le.mp (UInt64.not_lt.mp hlt)
    omega

/-- Every byte of the file counts as data. -/
theorem Disk.Sound.fill (h : d.Sound total) :
    Disk.Sound { d with data := [⟨0, d.len.toNat⟩] } total := by
  refine ⟨fun n hn => ?_, h.durable_synced, fun n hn => ?_, h.whole, fun c hc =>
    ⟨(h.ctrl c hc).fits, (h.ctrl c hc).base_total, (h.ctrl c hc).base_len,
      (h.ctrl c hc).synced, (h.ctrl c hc).durable⟩⟩
  · exact holds_singleton.mpr ⟨Nat.zero_le _, h.data_len n (h.durable_data n hn)⟩
  · exact (holds_singleton.mp hn).2

/-- A run whose writer thread is about to save for the first time. -/
theorem Running.Sound.start {s : Session} (hwhole : s.w.total = total)
    (htotal : s.w.base.toNat ≤ total.toNat) (hlen : s.w.base.toNat ≤ d.len.toNat)
    (hctrl : ∀ c, d.ctrl = some (.snapshot c) → c.base.toNat ≤ s.w.base.toNat)
    (hcovered : Covered s.w.table d.data) :
    Running.Sound ⟨s, .barrier .boot, none, .idle⟩ d total where
  whole := hwhole
  base_total := htotal
  base_len := hlen
  ctrl_base := hctrl
  covered _ := hcovered
  steady _ hb := by cases hb
  alone ha := by cases ha
  replacing _ _ _ hw := by cases hw
  chan _ hc := by cases hc
  sync := trivial

variable {s : Store}

/-- **A new run** takes over what an accepted control file records, which is in the data file. -/
theorem Store.Sound.boot (h : s.Sound total) (url : String) (opts : SplitOptions) (now : Nat) :
    (s.boot total url opts now).Sound total := by
  have hd := h.disk
  cases hacc : acceptCtrl total s.disk.len (Content.load s.disk.ctrl) with
  | some x =>
    obtain ⟨base, sorted⟩ := x
    obtain ⟨c, hc, -⟩ := acceptCtrl_some hacc
    have hctrl := load_some hc
    have hk := hd.ctrl c hctrl
    obtain ⟨hbase, hcovered⟩ := covered_recovered hd hk (hc ▸ hacc) url opts now
    have hlen : bootstrapLen total s.disk.len (Content.load s.disk.ctrl) = s.disk.len := by
      simp only [bootstrapLen, hacc]
    simp only [Store.boot, hlen, hacc, if_true]
    refine ⟨hd, fun r hr => ?_⟩
    obtain rfl := Option.some.inj hr
    simp only [Session.start, bootstrap, hacc]
    refine .start rfl ?_ ?_ (fun c' hc' => ?_) hcovered
    · exact Nat.le_trans (Nat.le_of_eq (congrArg UInt64.toNat hbase)) hk.base_total
    · exact Nat.le_trans (Nat.le_of_eq (congrArg UInt64.toNat hbase)) hk.base_len
    · obtain rfl := Content.snapshot.inj (Option.some.inj (hctrl.symm.trans hc'))
      exact Nat.le_of_eq (congrArg UInt64.toNat hbase.symm)
  | none =>
    have hmin := Word.toNat_min s.disk.len total
    have hctrl : ∀ c, s.disk.ctrl = some (.snapshot c) →
        c.base.toNat ≤ (min s.disk.len total).toNat := by
      intro c hc
      have hk := hd.ctrl c hc
      have := hk.base_len
      have := hk.base_total
      omega
    have hlen := bootstrapLen_of_none hacc
    have hdisk : Disk.Sound (if min s.disk.len total = s.disk.len then s.disk
        else s.disk.setLen (min s.disk.len total)) total := by
      split
      · exact hd
      · exact hd.setLen (.inl (by omega)) hctrl
    have hsame : (if min s.disk.len total = s.disk.len then s.disk
        else s.disk.setLen (min s.disk.len total)).len = min s.disk.len total ∧
        (if min s.disk.len total = s.disk.len then s.disk
          else s.disk.setLen (min s.disk.len total)).ctrl = s.disk.ctrl := by
      split
      · rename_i heq
        exact ⟨heq.symm, rfl⟩
      · exact ⟨rfl, rfl⟩
    simp only [Store.boot, hlen, hacc]
    generalize (if min s.disk.len total = s.disk.len then s.disk
      else s.disk.setLen (min s.disk.len total)) = d at hdisk hsame ⊢
    refine ⟨hsame.1 ▸ hdisk.fill, fun r hr => ?_⟩
    obtain rfl := Option.some.inj hr
    simp only [Session.start, bootstrap, hacc]
    refine .start rfl ?_ (Nat.le_of_eq (congrArg UInt64.toNat hsame.1.symm))
      (fun c hc => hctrl c (hsame.2 ▸ hc)) (covered_initial total s.disk.len url opts now)
    show (min s.disk.len total).toNat ≤ total.toNat
    omega

/-! ### The session -/

variable {e : Event}

theorem wrote_fits {s : Session} : ∀ p ∈ s.wrote e, p.hi < 18446744073709551616 := by
  intro p hp
  cases e with
  | write seg offset data io now =>
    simp only [Session.wrote] at hp
    rcases onWrite_cases s.w seg offset data io now with
      ⟨f, -, -, hfile⟩ | ⟨g, n, -, -, -, -, hlen, -, hend, -, hfile⟩
    · rw [hfile] at hp
      cases hp
    · rw [hfile] at hp
      obtain rfl := List.mem_singleton.mp hp
      have := g.end_.toNat_lt
      simp only [writeSpan, List.length_take, Nat.min_eq_left hlen]
      omega
  | _ => cases hp

theorem isCommand_of_wrote {s : Session} (h : s.wrote e ≠ []) : e.isCommand = true := by
  cases e with
  | write => rfl
  | _ => exact absurd rfl h

variable {r r' : Running}

/-- What an event of the session does to the run: a new session, and after a heartbeat perhaps a
job for the sync thread. -/
theorem sessionStep_spec {spans : List Span} (h : r.sessionStep e = some (r', spans)) :
    ∃ s', r.session.step e = some s' ∧ spans = r.session.wrote e ∧
      (e.isCommand = true → r.writer = .loop) ∧ r'.writer = r.writer ∧ r'.sync = r.sync ∧
      r'.session.w.table = s'.w.table ∧
      (r'.chan = r.chan ∨ (r.writer = .loop ∧ r'.chan = some (.job s'.w.serializeCtrl))) := by
  unfold Running.sessionStep at h
  split at h
  · cases h
  rename_i hcmd
  have hloop : e.isCommand = true → r.writer = .loop := by
    intro hc
    simpa [hc] using hcmd
  obtain ⟨s', hs', heq⟩ := Option.map_eq_some_iff.mp h
  refine ⟨s', hs', ?_⟩
  split at heq
  · rename_i now
    obtain ⟨rfl, rfl⟩ := Prod.mk.inj heq
    refine ⟨rfl, hloop, ?_⟩
    unfold Running.periodicSave
    split
    · exact ⟨rfl, rfl, rfl, .inl rfl⟩
    · split
      · exact ⟨rfl, rfl, rfl, .inl rfl⟩
      · exact ⟨rfl, rfl, rfl, .inr ⟨hloop rfl, rfl⟩⟩
  · obtain ⟨rfl, rfl⟩ := Prod.mk.inj heq
    exact ⟨rfl, hloop, rfl, rfl, rfl, .inl rfl⟩

/-- Base and total of a table do not change. -/
theorem fixed_ledger (base total : UInt64) :
    Ledger fun b _ => b.base = base ∧ b.total = total where
  cut h _ _ := h
  same h hb := ⟨hb.base.trans h.1, hb.total.trans h.2⟩
  land h _ _ _ _ _ := h

variable {d' : Disk}

theorem SyncThread.Sound.mono {y : SyncThread} (h : y.Sound base d)
    (hdata : ∀ n, Holds d.data n → Holds d'.data n)
    (hdurable : ∀ n, Holds d.durable n → Holds d'.durable n) (htmp : d'.tmp = d.tmp) :
    y.Sound base d' := by
  cases y with
  | idle => trivial
  | fsync c => exact CtrlFile.Carried.mono h hdata
  | fsyncing c data => exact ⟨h.1, fun n hn => hdata n (h.2 n hn)⟩
  | replacing c k => exact ⟨h.1.mono hdurable, fun hk => htmp ▸ h.2 hk⟩

/-- **An event of the session** keeps everything in order: the data it writes is in the file
before a snapshot of it is taken. -/
theorem Store.Sound.session {spans : List Span} (h : Store.Sound ⟨d, some r⟩ total)
    (he : r.sessionStep e = some (r', spans)) : Store.Sound ⟨d.write spans, some r'⟩ total := by
  have hr := h.run r rfl
  obtain ⟨s', hs', rfl, hloop, hwriter, hsync, htable, hchan⟩ := sessionStep_spec he
  have hfixed := @Ledger.step _ (fixed_ledger r.session.w.base total) [] _ _ _ ⟨rfl, hr.whole⟩ hs'
  have hbase : r'.session.w.base = r.session.w.base :=
    (congrArg Table.base htable).trans hfixed.1
  have htotal : r'.session.w.total = total := (congrArg Table.total htable).trans hfixed.2
  have hdata : ∀ n, Holds d.data n → Holds (d.write (r.session.wrote e)).data n := fun n hn =>
    holds_append.mpr (.inl hn)
  have hlen := (le_foldl_max (r.session.wrote e) d.len).1
  have hcovered : r.writer.reading = true →
      Covered s'.w.table (d.write (r.session.wrote e)).data := fun hw =>
    covered_ledger.step (hr.covered hw) hs'
  refine ⟨h.disk.write (fun hne => ?_) wrote_fits, fun x hx => ?_⟩
  · have := hloop (isCommand_of_wrote hne)
    exact hr.steady (by rw [this]; rfl) (by rw [this]; rfl)
  obtain rfl := Option.some.inj hx
  refine ⟨htotal, hbase ▸ hr.base_total, hbase ▸ Nat.le_trans hr.base_len hlen,
    fun c hc => hbase ▸ hr.ctrl_base c hc, fun hw => ?_, fun hw hb => ?_, fun ha => ?_,
    fun task c k hk => ?_, fun c hc => ?_, ?_⟩
  · rw [htable]
    exact hcovered (hwriter ▸ hw)
  · exact hr.steady (hwriter ▸ hw) (hwriter ▸ hb)
  · rw [hwriter] at ha
    obtain ⟨hnone, hidle⟩ := hr.alone ha
    refine ⟨?_, hsync.trans hidle⟩
    rcases hchan with hchan | ⟨hl, -⟩
    · exact hchan.trans hnone
    · rw [hl] at ha
      cases ha
  · rw [hbase]
    exact hr.replacing task c k (hwriter ▸ hk)
  · rcases hchan with hchan | ⟨hl, hjob⟩
    · rw [hbase]
      exact (hr.chan c (hchan ▸ hc)).mono hdata
    · rw [hjob] at hc
      obtain rfl := SyncMsg.job.inj (Option.some.inj hc)
      have hcarried := (hcovered (by rw [hl]; rfl)).carried
      rw [show s'.w.base = r.session.w.base from hfixed.1] at hcarried
      rw [hbase]
      exact hcarried
  · rw [hsync, hbase]
    exact hr.sync.mono hdata (fun n hn => hn) rfl

/-! ### The two threads -/

/-- A step of `write_ctrl_atomic` changes the temporary file, or it is the rename. -/
theorem replaceStep_cases (d : Disk) (c : CtrlFile) (k : Replace) (ok : Bool) :
    (∃ tmp, (d.replaceStep c k ok).1 = { d with tmp := tmp } ∧
      ((d.replaceStep c k ok).2 = none ∨ ∃ k', (d.replaceStep c k ok).2 = some (some k') ∧
        (k' = .rename → tmp = some (.snapshot c)))) ∨
    (k = .rename ∧ d.replaceStep c k ok =
      ({ d with ctrl := d.tmp, tmp := none, shortened := false }, some none)) := by
  cases k with
  | create =>
    cases ok with
    | false => exact .inl ⟨d.tmp, rfl, .inl rfl⟩
    | true => exact .inl ⟨some .partly, rfl, .inr ⟨.write, rfl, nofun⟩⟩
  | write =>
    cases ok with
    | false => exact .inl ⟨some .partly, rfl, .inl rfl⟩
    | true => exact .inl ⟨some (.snapshot c), rfl, .inr ⟨.rename, rfl, fun _ => rfl⟩⟩
  | rename =>
    cases ok with
    | false => exact .inl ⟨d.tmp, rfl, .inl rfl⟩
    | true => exact .inr ⟨rfl, rfl⟩

variable {ok : Bool}

theorem Store.Sound.writer_replacing {task : Task} {k : Replace} (h : Store.Sound ⟨d, some r⟩ total)
    (hw : r.writer = .replacing task c k) (he : r.writerStep d ok now = some (r', d')) :
    Store.Sound ⟨d', some r'⟩ total := by
  have hr := h.run r rfl
  obtain ⟨hcarried, htmp⟩ := hr.replacing task c k hw
  obtain ⟨hnone, hidle⟩ := hr.alone (by rw [hw]; rfl)
  have hcovered := hr.covered (by rw [hw]; rfl)
  have hsteady := hr.steady (by rw [hw]; rfl)
  simp only [Running.writerStep, hw] at he
  rcases replaceStep_cases d c k ok with ⟨tmp, hd, hnext⟩ | ⟨rfl, heq⟩
  · rcases hnext with hend | ⟨k', hk, hsnap⟩
    · rw [← Prod.eta (d.replaceStep c k ok), hd, hend] at he
      obtain ⟨rfl, rfl⟩ := Prod.mk.inj (Option.some.inj he)
      refine ⟨h.disk.setTmp tmp, fun x hx => ?_⟩
      obtain rfl := Option.some.inj hx
      refine ⟨hr.whole, hr.base_total, hr.base_len, hr.ctrl_base, nofun, nofun, nofun, nofun,
        hr.chan, ?_⟩
      rw [hidle]
      trivial
    · rw [← Prod.eta (d.replaceStep c k ok), hd, hk] at he
      obtain ⟨rfl, rfl⟩ := Prod.mk.inj (Option.some.inj he)
      refine ⟨h.disk.setTmp tmp, fun x hx => ?_⟩
      obtain rfl := Option.some.inj hx
      refine ⟨hr.whole, hr.base_total, hr.base_len, hr.ctrl_base, fun _ => hcovered,
        fun _ hb => hsteady ?_, fun _ => ⟨hnone, hidle⟩, fun task' c' k'' heq => ?_, hr.chan, ?_⟩
      · rw [hw]
        cases task with
        | boot => exact hb
        | save => rfl
        | finish => rfl
      · obtain ⟨rfl, rfl, rfl⟩ := WriterThread.replacing.inj heq
        exact ⟨hcarried, hsnap⟩
      · rw [hidle]
        trivial
  · rw [heq] at he
    obtain ⟨rfl, rfl⟩ := Prod.mk.inj (Option.some.inj he)
    rw [htmp rfl]
    refine ⟨h.disk.rename hcarried hr.base_total hr.base_len, fun x hx => ?_⟩
    obtain rfl := Option.some.inj hx
    refine ⟨hr.whole, hr.base_total, hr.base_len, fun c' hc' => ?_, fun _ => hcovered,
      fun _ _ => rfl, fun _ => ⟨hnone, hidle⟩, fun task' c' k' hk => ?_, hr.chan, ?_⟩
    · obtain rfl := Content.snapshot.inj (Option.some.inj hc')
      exact Nat.le_of_eq (congrArg UInt64.toNat hcarried.base)
    · cases task with
      | boot => cases hk
      | save => cases hk
      | finish => cases hk
    · rw [hidle]
      trivial

/-- The forced `fsync`. -/
theorem Store.Sound.writer_fsync {task : Task} (h : Store.Sound ⟨d, some r⟩ total)
    (hw : r.writer = .fsync task) (he : r.writerStep d ok now = some (r', d')) :
    Store.Sound ⟨d', some r'⟩ total := by
  have hr := h.run r rfl
  obtain ⟨hnone, hidle⟩ := hr.alone (by rw [hw]; rfl)
  have hcovered := hr.covered (by rw [hw]; rfl)
  have hsteady := hr.steady (by rw [hw]; rfl)
  have hsync : (d.sync d.data).Sound total := h.disk.sync fun n hn => hn
  have hcarried : r.session.w.serializeCtrl.Carried r.session.w.base (d.sync d.data).durable :=
    hcovered.carried.mono fun n hn => holds_append.mpr (.inr hn)
  -- where a run goes on whose snapshot is durable
  have hgo : ∀ y : WriterThread, (y.booting = false → r.writer.booting = false) →
      (∀ task c k, y = .replacing task c k → c = r.session.w.serializeCtrl ∧ k = .create) →
      Store.Sound ⟨d.sync d.data, some { r with writer := y }⟩ total := by
    intro y hboot hrep
    refine ⟨hsync, fun x hx => ?_⟩
    obtain rfl := Option.some.inj hx
    refine ⟨hr.whole, hr.base_total, hr.base_len, hr.ctrl_base, fun _ => hcovered,
      fun _ hb => hsteady (hboot hb), fun _ => ⟨hnone, hidle⟩, fun task' c k hk => ?_, ?_, ?_⟩
    · obtain ⟨rfl, rfl⟩ := hrep task' c k hk
      exact ⟨hcarried, nofun⟩
    · intro c hc
      rw [hnone] at hc
      cases hc
    · rw [hidle]
      trivial
  simp only [Running.writerStep, hw] at he
  split at he
  · obtain ⟨rfl, rfl⟩ := Prod.mk.inj (Option.some.inj he)
    refine ⟨h.disk, fun x hx => ?_⟩
    obtain rfl := Option.some.inj hx
    refine ⟨hr.whole, hr.base_total, hr.base_len, hr.ctrl_base, nofun, nofun, nofun, nofun,
      hr.chan, ?_⟩
    rw [hidle]
    trivial
  · cases task with
    | boot =>
      obtain ⟨rfl, rfl⟩ := Prod.mk.inj (Option.some.inj he)
      exact hgo _ nofun fun _ _ _ hk => by
        obtain ⟨-, rfl, rfl⟩ := WriterThread.replacing.inj hk
        exact ⟨rfl, rfl⟩
    | save =>
      obtain ⟨rfl, rfl⟩ := Prod.mk.inj (Option.some.inj he)
      exact hgo _ (fun _ => by rw [hw]; rfl) fun _ _ _ hk => by
        obtain ⟨-, rfl, rfl⟩ := WriterThread.replacing.inj hk
        exact ⟨rfl, rfl⟩
    | finish mode =>
      cases mode with
      | preserve =>
        obtain ⟨rfl, rfl⟩ := Prod.mk.inj (Option.some.inj he)
        exact hgo _ (fun _ => by rw [hw]; rfl) nofun
      | success | discard =>
        obtain ⟨rfl, rfl⟩ := Prod.mk.inj (Option.some.inj he)
        exact hgo _ (fun _ => by rw [hw]; rfl) nofun

theorem le_contiguousPrefix (w : Writer) : w.base.toNat ≤ w.contiguousPrefix.toNat :=
  Writer.le_prefixFrom _ _

/-- **A step of the writer thread.** -/
theorem Store.Sound.writer (h : Store.Sound ⟨d, some r⟩ total)
    (he : r.writerStep d ok now = some (r', d')) : Store.Sound ⟨d', some r'⟩ total := by
  have hr := h.run r rfl
  cases hw : r.writer with
  | loop | waiting | done => simp [Running.writerStep, hw] at he
  | barrier task =>
    simp only [Running.writerStep, hw] at he
    split at he
    · cases he
    · obtain ⟨rfl, rfl⟩ := Prod.mk.inj (Option.some.inj he)
      refine ⟨h.disk, fun x hx => ?_⟩
      obtain rfl := Option.some.inj hx
      refine ⟨hr.whole, hr.base_total, hr.base_len, hr.ctrl_base,
        fun _ => hr.covered (by rw [hw]; rfl), fun _ hb => hr.steady (by rw [hw]; rfl) ?_, nofun,
        nofun, nofun, hr.sync⟩
      rw [hw]
      cases task with
      | boot => exact hb
      | save => rfl
      | finish => rfl
  | fsync task => exact h.writer_fsync hw he
  | replacing task c k => exact h.writer_replacing hw he
  | setLen mode =>
    obtain ⟨hnone, hidle⟩ := hr.alone (by rw [hw]; rfl)
    have hshort := hr.steady (by rw [hw]; rfl) (by rw [hw]; rfl)
    simp only [Running.writerStep, hw] at he
    split at he
    · obtain ⟨rfl, rfl⟩ := Prod.mk.inj (Option.some.inj he)
      refine ⟨h.disk, fun x hx => ?_⟩
      obtain rfl := Option.some.inj hx
      exact ⟨hr.whole, hr.base_total, hr.base_len, hr.ctrl_base, nofun, nofun, nofun, nofun,
        hr.chan, hr.sync⟩
    · obtain ⟨rfl, rfl⟩ := Prod.mk.inj (Option.some.inj he)
      have hbase : r.session.w.base.toNat ≤
          (if mode = .success then r.session.w.total else r.session.w.contiguousPrefix).toNat := by
        split
        · rw [hr.whole]
          exact hr.base_total
        · exact le_contiguousPrefix _
      refine ⟨h.disk.setLen (.inr hshort) fun c hc => Nat.le_trans (hr.ctrl_base c hc) hbase,
        fun x hx => ?_⟩
      obtain rfl := Option.some.inj hx
      refine ⟨hr.whole, hr.base_total, hbase, hr.ctrl_base, nofun, nofun,
        fun _ => ⟨hnone, hidle⟩, nofun, fun c hc => ?_, ?_⟩
      · rw [hnone] at hc
        cases hc
      · rw [hidle]
        trivial
  | remove mode =>
    obtain ⟨hnone, hidle⟩ := hr.alone (by rw [hw]; rfl)
    simp only [Running.writerStep, hw] at he
    obtain ⟨rfl, rfl⟩ := Prod.mk.inj (Option.some.inj he)
    cases ok with
    | false =>
      refine ⟨h.disk, fun x hx => ?_⟩
      obtain rfl := Option.some.inj hx
      exact ⟨hr.whole, hr.base_total, hr.base_len, hr.ctrl_base, nofun, nofun,
        fun _ => ⟨hnone, hidle⟩, nofun, hr.chan, hr.sync⟩
    | true =>
      refine ⟨h.disk.remove, fun x hx => ?_⟩
      obtain rfl := Option.some.inj hx
      refine ⟨hr.whole, hr.base_total, hr.base_len, nofun, nofun, nofun,
        fun _ => ⟨hnone, hidle⟩, nofun, hr.chan, ?_⟩
      rw [hidle]
      trivial

/-- The sync thread takes a message. -/
theorem Store.Sound.sync_idle (h : Store.Sound ⟨d, some r⟩ total) (hy : r.sync = .idle)
    (he : r.syncStep d ok = some (r', d')) : Store.Sound ⟨d', some r'⟩ total := by
  have hr := h.run r rfl
  have hbusy : ∀ m, r.chan = some m → r.writer.alone = true → False := by
    intro m hm ha
    rw [(hr.alone ha).1] at hm
    cases hm
  simp only [Running.syncStep, hy] at he
  split at he
  · cases he
  · -- a snapshot, whose bytes were in the file when it was sent
    rename_i c hc
    obtain ⟨rfl, rfl⟩ := Prod.mk.inj (Option.some.inj he)
    refine ⟨h.disk, fun x hx => ?_⟩
    obtain rfl := Option.some.inj hx
    exact ⟨hr.whole, hr.base_total, hr.base_len, hr.ctrl_base, hr.covered, hr.steady,
      fun ha => (hbusy _ hc ha).elim, hr.replacing, nofun, hr.chan c hc⟩
  · -- the barrier: the writer thread goes on alone
    rename_i task hc hw
    obtain ⟨rfl, rfl⟩ := Prod.mk.inj (Option.some.inj he)
    refine ⟨h.disk, fun x hx => ?_⟩
    obtain rfl := Option.some.inj hx
    refine ⟨hr.whole, hr.base_total, hr.base_len, hr.ctrl_base,
      fun _ => hr.covered (by rw [hw]; rfl), fun _ hb => hr.steady (by rw [hw]; rfl) ?_,
      fun _ => ⟨rfl, rfl⟩, nofun, nofun, trivial⟩
    rw [hw]
    cases task with
    | boot => exact hb
    | save | finish => rfl
  · rename_i hc _
    obtain ⟨rfl, rfl⟩ := Prod.mk.inj (Option.some.inj he)
    refine ⟨h.disk, fun x hx => ?_⟩
    obtain rfl := Option.some.inj hx
    exact ⟨hr.whole, hr.base_total, hr.base_len, hr.ctrl_base, hr.covered, hr.steady,
      fun ha => (hbusy _ hc ha).elim, hr.replacing, nofun, trivial⟩

/-- The sync thread replaces the control file. -/
theorem Store.Sound.sync_replacing {k : Replace} (h : Store.Sound ⟨d, some r⟩ total)
    (hy : r.sync = .replacing c k) (he : r.syncStep d ok = some (r', d')) :
    Store.Sound ⟨d', some r'⟩ total := by
  have hr := h.run r rfl
  obtain ⟨hcarried, htmp⟩ : c.Carried r.session.w.base d.durable ∧
      (k = .rename → d.tmp = some (.snapshot c)) := by
    have := hr.sync
    rw [hy] at this
    exact this
  -- the writer thread does not touch the temporary file meanwhile
  have hbusy : r.writer.alone = true → False := by
    intro ha
    have := (hr.alone ha).2
    rw [hy] at this
    cases this
  have hwriter : ∀ task c k, r.writer ≠ .replacing task c k := fun task c k hw =>
    hbusy (by rw [hw]; rfl)
  -- a step that changes the temporary file only
  have hgo : ∀ (tmp : Option Content) (y : SyncThread),
      y.Sound r.session.w.base { d with tmp := tmp } →
      Store.Sound ⟨{ d with tmp := tmp }, some { r with sync := y }⟩ total := by
    intro tmp y hsound
    refine ⟨h.disk.setTmp tmp, fun x hx => ?_⟩
    obtain rfl := Option.some.inj hx
    exact ⟨hr.whole, hr.base_total, hr.base_len, hr.ctrl_base, hr.covered, hr.steady,
      fun ha => (hbusy ha).elim, fun task c k hw => absurd hw (hwriter task c k), hr.chan, hsound⟩
  simp only [Running.syncStep, hy] at he
  rcases replaceStep_cases d c k ok with ⟨tmp, hd, hnext⟩ | ⟨rfl, heq⟩
  · rcases hnext with hend | ⟨k', hk, hsnap⟩
    · rw [← Prod.eta (d.replaceStep c k ok), hd, hend] at he
      obtain ⟨rfl, rfl⟩ := Prod.mk.inj (Option.some.inj he)
      exact hgo tmp .idle trivial
    · rw [← Prod.eta (d.replaceStep c k ok), hd, hk] at he
      obtain ⟨rfl, rfl⟩ := Prod.mk.inj (Option.some.inj he)
      exact hgo tmp (.replacing c k') ⟨hcarried, hsnap⟩
  · rw [heq] at he
    obtain ⟨rfl, rfl⟩ := Prod.mk.inj (Option.some.inj he)
    rw [htmp rfl]
    refine ⟨h.disk.rename hcarried hr.base_total hr.base_len, fun x hx => ?_⟩
    obtain rfl := Option.some.inj hx
    refine ⟨hr.whole, hr.base_total, hr.base_len, fun c' hc' => ?_, hr.covered, fun _ _ => rfl,
      fun ha => (hbusy ha).elim, fun task c k hw => absurd hw (hwriter task c k), hr.chan, trivial⟩
    obtain rfl := Content.snapshot.inj (Option.some.inj hc')
    exact Nat.le_of_eq (congrArg UInt64.toNat hcarried.base)

/-- **A step of the sync thread.** -/
theorem Store.Sound.sync (h : Store.Sound ⟨d, some r⟩ total)
    (he : r.syncStep d ok = some (r', d')) : Store.Sound ⟨d', some r'⟩ total := by
  have hr := h.run r rfl
  have hy' := hr.sync
  cases hy : r.sync with
  | idle => exact h.sync_idle hy he
  | replacing c k => exact h.sync_replacing hy he
  | fsync c =>
    rw [hy] at hy'
    simp only [Running.syncStep, hy] at he
    obtain ⟨rfl, rfl⟩ := Prod.mk.inj (Option.some.inj he)
    refine ⟨h.disk, fun x hx => ?_⟩
    obtain rfl := Option.some.inj hx
    exact ⟨hr.whole, hr.base_total, hr.base_len, hr.ctrl_base, hr.covered, hr.steady,
      fun ha => absurd ((hr.alone ha).2) (by rw [hy]; nofun), hr.replacing, hr.chan,
      hy', fun n hn => hn⟩
  | fsyncing c data =>
    rw [hy] at hy'
    obtain ⟨hcarried, hle⟩ := hy'
    have hbusy : r.writer.alone = true → False := fun ha =>
      absurd ((hr.alone ha).2) (by rw [hy]; nofun)
    simp only [Running.syncStep, hy] at he
    split at he
    · obtain ⟨rfl, rfl⟩ := Prod.mk.inj (Option.some.inj he)
      refine ⟨h.disk.sync hle, fun x hx => ?_⟩
      obtain rfl := Option.some.inj hx
      exact ⟨hr.whole, hr.base_total, hr.base_len, hr.ctrl_base, hr.covered, hr.steady,
        fun ha => (hbusy ha).elim, fun task c k hw => (hbusy (by rw [hw]; rfl)).elim, hr.chan,
        hcarried.mono fun n hn => holds_append.mpr (.inr hn), nofun⟩
    · obtain ⟨rfl, rfl⟩ := Prod.mk.inj (Option.some.inj he)
      refine ⟨h.disk, fun x hx => ?_⟩
      obtain rfl := Option.some.inj hx
      exact ⟨hr.whole, hr.base_total, hr.base_len, hr.ctrl_base, hr.covered, hr.steady,
        fun ha => (hbusy ha).elim, hr.replacing, hr.chan, trivial⟩

/-! ## Every interleaving -/

/-- **Every step** keeps the disk and the run in order. -/
theorem Store.Sound.step {s' : Store} {e : StoreEvent} (h : s.Sound total)
    (he : s.step total e = some s') : s'.Sound total := by
  obtain ⟨d, run⟩ := s
  cases e with
  | boot url opts now =>
    cases run with
    | none =>
      simp only [Store.step, Option.some.injEq] at he
      subst he
      exact h.boot url opts now
    | some r => cases he
  | crash len =>
    simp only [Store.step] at he
    split at he
    · rename_i hlen
      obtain rfl := Option.some.inj he
      refine ⟨h.disk.crash hlen, fun r hr => ?_⟩
      cases hr
    · cases he
  | session e =>
    obtain ⟨r, rfl, he⟩ := Option.bind_eq_some_iff.mp he
    obtain ⟨x, hx, rfl⟩ := Option.map_eq_some_iff.mp he
    exact h.session hx
  | writer ok now =>
    obtain ⟨r, rfl, he⟩ := Option.bind_eq_some_iff.mp he
    obtain ⟨x, hx, rfl⟩ := Option.map_eq_some_iff.mp he
    exact h.writer hx
  | sync ok =>
    obtain ⟨r, rfl, he⟩ := Option.bind_eq_some_iff.mp he
    obtain ⟨x, hx, rfl⟩ := Option.map_eq_some_iff.mp he
    exact h.sync hx
  | finish mode =>
    obtain ⟨r, rfl, he⟩ := Option.bind_eq_some_iff.mp he
    have hs := h.run r rfl
    split at he
    · rename_i hw
      obtain rfl := Option.some.inj he
      refine ⟨h.disk, fun x hx => ?_⟩
      obtain rfl := Option.some.inj hx
      exact ⟨hs.whole, hs.base_total, hs.base_len, hs.ctrl_base,
        fun _ => hs.covered (by rw [hw]; rfl),
        fun _ _ => hs.steady (by rw [hw]; rfl) (by rw [hw]; rfl), nofun, nofun, hs.chan, hs.sync⟩
    · cases he
  | hangup =>
    obtain ⟨r, rfl, he⟩ := Option.bind_eq_some_iff.mp he
    have hs := h.run r rfl
    split at he
    · obtain rfl := Option.some.inj he
      refine ⟨h.disk, fun x hx => ?_⟩
      obtain rfl := Option.some.inj hx
      exact ⟨hs.whole, hs.base_total, hs.base_len, hs.ctrl_base, nofun, nofun, nofun, nofun,
        hs.chan, hs.sync⟩
    · cases he
  | close =>
    obtain ⟨r, rfl, he⟩ := Option.bind_eq_some_iff.mp he
    split at he
    · obtain rfl := Option.some.inj he
      refine ⟨h.disk, fun r hr => ?_⟩
      cases hr
    · cases he

theorem Store.fresh_sound (len : UInt64) (durable : List Span) (tmp : Option Content)
    (total : UInt64) : (Store.fresh len durable tmp).Sound total := by
  unfold Store.fresh
  refine ⟨⟨fun n hn => ?_, fun n hn => hn, fun n hn => (holds_singleton.mp hn).2, nofun, nofun⟩,
    fun r hr => ?_⟩
  · exact holds_singleton.mpr ⟨Nat.zero_le _, (holds_clip.mp hn).2⟩
  · cases hr

/-- The control file is a whole snapshot or absent.  Every byte it records as written was durable
when it came, and has been since, unless the data file was cut below it afterwards. -/
structure Store.CrashSafe (s : Store) : Prop where
  whole : s.disk.ctrl ≠ some .partly
  recorded : ∀ c, s.disk.ctrl = some (.snapshot c) → ∀ n, c.Records n →
    Holds s.disk.synced n ∧ (Holds s.disk.durable n ∨ (s.disk.shortened = true ∧
      s.disk.len.toNat ≤ n))

theorem Store.Sound.crashSafe (h : s.Sound total) : s.CrashSafe :=
  ⟨h.disk.whole, fun c hc n hn => ⟨(h.disk.ctrl c hc).synced n hn, (h.disk.ctrl c hc).durable n hn⟩⟩

/-! ## After the end of a run -/

def StoreEvent.isBoot : StoreEvent → Bool
  | .boot .. => true
  | _ => false

/-- The writer thread has come to its end, and the sync thread has nothing to do; or no run is
left. -/
def Store.AtEnd (s : Store) : Prop :=
  ∀ r, s.run = some r → (∃ mode, r.writer = .done mode) ∧ r.chan = none ∧ r.sync = .idle

/-- Nothing changes the control file any more, until a new run begins. -/
def Store.Final (total : UInt64) (s : Store) : Prop :=
  ∀ fs u, (∀ e ∈ fs, e.isBoot = false) → s.trace total fs = some u → u.disk.ctrl = s.disk.ctrl

theorem Store.AtEnd.step {s' : Store} {e : StoreEvent} (h : s.AtEnd) (hboot : e.isBoot = false)
    (he : s.step total e = some s') : s'.AtEnd ∧ s'.disk.ctrl = s.disk.ctrl := by
  have hloop : ∀ r, s.run = some r → r.writer ≠ .loop := by
    intro r hr hw
    obtain ⟨⟨mode, hdone⟩, -⟩ := h r hr
    rw [hw] at hdone
    cases hdone
  cases e with
  | boot => cases hboot
  | session e =>
    obtain ⟨r, hr, he⟩ := Option.bind_eq_some_iff.mp he
    obtain ⟨⟨r', spans⟩, hx, rfl⟩ := Option.map_eq_some_iff.mp he
    obtain ⟨hdone, hnone, hidle⟩ := h r hr
    obtain ⟨s', -, -, -, hwriter, hsync, -, hchan⟩ := sessionStep_spec hx
    refine ⟨fun x hx => ?_, rfl⟩
    obtain rfl := Option.some.inj hx
    refine ⟨hwriter ▸ hdone, ?_, hsync.trans hidle⟩
    rcases hchan with hchan | ⟨hw, -⟩
    · exact hchan.trans hnone
    · exact absurd hw (hloop r hr)
  | finish mode =>
    obtain ⟨r, hr, he⟩ := Option.bind_eq_some_iff.mp he
    rw [if_neg (hloop r hr)] at he
    cases he
  | hangup =>
    obtain ⟨r, hr, he⟩ := Option.bind_eq_some_iff.mp he
    rw [if_neg (hloop r hr)] at he
    cases he
  | writer ok now =>
    obtain ⟨r, hr, he⟩ := Option.bind_eq_some_iff.mp he
    obtain ⟨x, hx, rfl⟩ := Option.map_eq_some_iff.mp he
    obtain ⟨⟨mode, hdone⟩, -⟩ := h r hr
    simp only [Running.writerStep, hdone] at hx
    cases hx
  | sync ok =>
    obtain ⟨r, hr, he⟩ := Option.bind_eq_some_iff.mp he
    obtain ⟨x, hx, rfl⟩ := Option.map_eq_some_iff.mp he
    obtain ⟨-, hnone, hidle⟩ := h r hr
    simp only [Running.syncStep, hidle, hnone] at hx
    cases hx
  | close =>
    obtain ⟨r, hr, he⟩ := Option.bind_eq_some_iff.mp he
    split at he
    · obtain rfl := Option.some.inj he
      refine ⟨fun x hx => ?_, rfl⟩
      cases hx
    · cases he
  | crash len =>
    simp only [Store.step] at he
    split at he
    · obtain rfl := Option.some.inj he
      refine ⟨fun x hx => ?_, rfl⟩
      cases hx
    · cases he

theorem Store.AtEnd.final (h : s.AtEnd) : s.Final total := by
  intro fs u hboot hu
  have hrun : u.AtEnd ∧ u.disk.ctrl = s.disk.ctrl :=
    run_invariant (I := fun t => t.AtEnd ∧ t.disk.ctrl = s.disk.ctrl)
      (fun t e t' ht he hstep =>
        have := ht.1.step he hstep
        ⟨this.1, this.2.trans ht.2⟩)
      ⟨h, rfl⟩ (along_of_forall hboot) hu
  exact hrun.2

/-- `finish` leaves nothing for the sync thread to do. -/
theorem Store.Sound.atEnd {mode : FinishMode} (h : s.Sound total) (hr : s.run = some r)
    (hw : r.writer = .done (some mode)) : s.AtEnd := by
  intro x hx
  obtain rfl := Option.some.inj (hr.symm.trans hx)
  exact ⟨⟨_, hw⟩, (h.run r hr).alone (by rw [hw]; rfl)⟩

/-- **The control file is safe at every point.**  Whatever the two threads, the session and the
disk do in between, the control file records durable bytes only.  When `finish` removes it, it is
gone, and after the end of `finish` nothing changes it any more. -/
theorem store_crashSafe {total len : UInt64} {durable : List Span} {tmp : Option Content}
    {es : List StoreEvent} {t : Store}
    (hrun : (Store.fresh len durable tmp).trace total es = some t) :
    t.CrashSafe ∧
      (∀ r mode, t.run = some r → r.writer = .remove mode → ∀ now t',
        t.step total (.writer true now) = some t' → t'.disk.ctrl = none ∧ t'.Final total) ∧
      ∀ r mode, t.run = some r → r.writer = .done (some mode) → t.Final total := by
  have hsound : t.Sound total :=
    run_invariant (I := fun s => s.Sound total) (P := fun _ _ => True)
      (fun _ _ _ hs _ he => hs.step he) (Store.fresh_sound len durable tmp total)
      (along_of_forall fun _ _ => trivial) hrun
  refine ⟨hsound.crashSafe, fun r mode hr hw now t' ht' => ?_, fun r mode hr hw =>
    (hsound.atEnd hr hw).final⟩
  have hsound' := hsound.step ht'
  obtain ⟨r', hr', he⟩ := Option.bind_eq_some_iff.mp ht'
  obtain rfl := Option.some.inj (hr.symm.trans hr')
  obtain ⟨x, hx, rfl⟩ := Option.map_eq_some_iff.mp he
  simp only [Running.writerStep, hw] at hx
  obtain rfl := Option.some.inj hx
  exact ⟨rfl, (hsound'.atEnd rfl rfl).final⟩

/-- A download of three bytes: the control file records two of them when its removal comes. -/
def smallEvents : List StoreEvent :=
  -- `bootstrap` and the forced save
  [.boot "http://host/file" widest 0, .writer true 0, .sync true, .writer true 0, .writer true 0,
    .writer true 0, .writer true 0,
    -- the heartbeat's snapshot is sent between the two writes, and saved after them
    .session (.next 0 false 0 1), .session (.write 0 0 [1, 2] none 1),
    .session (.saveCtrl 2000000000), .session (.write 0 2 [3] none 2000000000), .sync true,
    .sync true, .sync true, .sync true, .sync true, .sync true,
    -- `finish` up to the removal
    .finish .success, .writer true 2000000001, .sync true, .writer true 2000000001,
    .writer true 2000000001]

def smallEnd : Store :=
  (Store.trace 3 (.fresh 0 [] none) smallEvents).get (by decide +kernel)

theorem small_crashSafe :
    smallEnd.CrashSafe ∧
      (∀ r mode, smallEnd.run = some r → r.writer = .remove mode → ∀ now t',
        smallEnd.step 3 (.writer true now) = some t' → t'.disk.ctrl = none ∧ t'.Final 3) ∧
      ∀ r mode, smallEnd.run = some r → r.writer = .done (some mode) → smallEnd.Final 3 :=
  store_crashSafe
    (show (Store.fresh 0 [] none).trace 3 smallEvents = some smallEnd from (Option.some_get _).symm)

example : smallEnd.run.map Running.writer = some (.remove .success) := by decide +kernel

end XferRust.Split
