import XferRust.Lib.PathName
import XferRust.Storage.PieceStore

/-! # Where the files of a torrent lie

The names in a torrent come from whoever made it.  `sanitize_segment` makes each of them a plain
name, and so the paths that the piece store builds from them lead below the download directory, on
every platform and whatever the directory.
-/
namespace XferRust
open Bencode Bencode.Info PathName

/-- The path of a file of the store, from the components of the download directory on. -/
def Storage.PieceStore.filePath (p : Platform) (root : List Component) (name : String)
    (layout : PieceLayout) (f : FileLayout) : Option (List Component) := do
  let base ← p.push root name.toList
  if layout.isSingleFile then some base
  else
    let below ← (f.path.map String.toList).foldlM p.push []
    some (base ++ below)

/-! ## Sanitised names -/

theorem Bencode.sanitizeSegment_plain (seg : String) : Plain (sanitizeSegment seg).toList := by
  have hunderscore : Plain "_".toList := by
    refine ⟨by decide, by decide, by decide, fun c hc => ?_⟩
    obtain rfl : c = '_' := List.mem_singleton.mp hc
    decide
  unfold sanitizeSegment
  split
  · exact hunderscore
  rename_i hnul
  dsimp only
  split
  · exact hunderscore
  rename_i hname
  rw [Bool.not_eq_true, Bool.or_eq_false_iff, Bool.or_eq_false_iff] at hname
  obtain ⟨⟨hempty, hcur⟩, hparent⟩ := hname
  have hne : ∀ {s t : String}, decide (s = t) = false → s.toList ≠ t.toList :=
    fun hst he => of_decide_eq_false hst (String.toList_inj.mp he)
  refine ⟨hne hempty, hne hcur, hne hparent, fun c hc => ?_⟩
  rw [String.toList_ofList] at hc
  obtain ⟨d, hd, rfl⟩ := List.mem_map.mp hc
  split
  · decide
  · rename_i hkept
    simp only [Bool.or_eq_true, decide_eq_true_eq, not_or] at hkept
    refine ⟨hkept.1.1, hkept.1.2, hkept.2, fun he => hnul ?_⟩
    rw [← he]
    exact List.contains_iff_mem.mpr hd

/-! ## Accepted torrents -/

/-- The name and the segments of all paths are plain, and no path is empty. -/
structure Bencode.Info.PlainNames (info : Info) : Prop where
  name : Plain info.name.toList
  files : ∀ f ∈ info.files, f.path ≠ [] ∧ ∀ seg ∈ f.path, Plain seg.toList

namespace Bencode

variable {decodeText : List UInt8 → String}

theorem parseFile_plain {v : Value} {f : FileEntry} (h : parseFile decodeText v = .ok f) :
    f.path ≠ [] ∧ ∀ seg ∈ f.path, Plain seg.toList := by
  obtain ⟨fd, -, h⟩ := except_bind_ok.mp h
  obtain ⟨length, -, h⟩ := except_bind_ok.mp h
  obtain ⟨items, -, h⟩ := except_bind_ok.mp h
  dsimp only at h
  split at h
  · cases h
  rename_i hparts
  obtain rfl := Except.ok.inj h
  refine ⟨fun he => hparts (List.isEmpty_iff.mpr he), fun seg hseg => ?_⟩
  obtain ⟨part, -, rfl⟩ := List.mem_map.mp hseg
  exact sanitizeSegment_plain _

/-- What holds of whatever `parseFile` returns holds of each of the files. -/
theorem mapM_ok_forall {P : FileEntry → Prop}
    (hone : ∀ v f, parseFile decodeText v = .ok f → P f) {items : List Value}
    {files : List FileEntry} (h : items.mapM (parseFile decodeText) = .ok files) :
    ∀ f ∈ files, P f := by
  induction items generalizing files with
  | nil =>
    obtain rfl := Except.ok.inj h
    nofun
  | cons v items ih =>
    rw [List.mapM_cons] at h
    obtain ⟨f, hf, h⟩ := except_bind_ok.mp h
    obtain ⟨rest, hrest, h⟩ := except_bind_ok.mp h
    obtain rfl := Except.ok.inj h
    exact List.forall_mem_cons.mpr ⟨hone v f hf, ih hrest⟩

theorem parseFiles_plain {dict : List (Key × Value)} {name : String} (hname : Plain name.toList)
    {files : List FileEntry} {multiFile : Bool}
    (h : parseFiles decodeText dict name = .ok (files, multiFile)) :
    ∀ f ∈ files, f.path ≠ [] ∧ ∀ seg ∈ f.path, Plain seg.toList := by
  unfold parseFiles at h
  split at h
  · split at h
    · cases h
    · obtain ⟨rfl, -⟩ := Prod.mk.inj (Except.ok.inj h)
      refine List.forall_mem_singleton.mpr ⟨List.cons_ne_nil _ _, ?_⟩
      exact List.forall_mem_singleton.mpr hname
  · obtain ⟨items, -, h⟩ := except_bind_ok.mp h
    obtain ⟨parsed, hparsed, h⟩ := except_bind_ok.mp h
    obtain ⟨rfl, -⟩ := Prod.mk.inj (Except.ok.inj h)
    exact mapM_ok_forall (fun _ _ => parseFile_plain) hparsed

theorem parseInfo_plainNames {v : Value} {info : Info} (h : parseInfo decodeText v = .ok info) :
    info.PlainNames := by
  obtain ⟨dict, -, h⟩ := except_bind_ok.mp h
  obtain ⟨rawName, -, h⟩ := except_bind_ok.mp h
  obtain ⟨n, -, h⟩ := except_bind_ok.mp h
  obtain ⟨piecesRaw, -, h⟩ := except_bind_ok.mp h
  split at h
  · cases h
  · obtain ⟨⟨files, multiFile⟩, hfiles, h⟩ := except_bind_ok.mp h
    obtain rfl := Except.ok.inj h
    have hname := sanitizeSegment_plain (decodeText rawName)
    exact ⟨hname, parseFiles_plain hname hfiles⟩

end Bencode

/-! ## Paths -/

namespace Storage

theorem place_paths {files : List (List String × UInt64)} {offset : UInt64} {ls : List FileLayout}
    (h : PieceLayout.place offset files = some ls) : ls.map FileLayout.path = files.map Prod.fst := by
  induction files generalizing offset ls with
  | nil =>
    obtain rfl := Option.some.inj h
    rfl
  | cons f files ih =>
    obtain ⟨next, -, h⟩ := Option.bind_eq_some_iff.mp h
    obtain ⟨rest, hrest, h⟩ := Option.bind_eq_some_iff.mp h
    obtain rfl := Option.some.inj h
    exact congrArg (_ :: ·) (ih hrest)

/-- A layout has the paths of the torrent that it is built for. -/
theorem ofInfo_paths {info : Info} {layout : PieceLayout} (h : PieceLayout.ofInfo info = some layout) :
    layout.files.map FileLayout.path = info.files.map FileEntry.path := by
  obtain ⟨new, hnew, h⟩ := Option.bind_eq_some_iff.mp h
  obtain ⟨files, hfiles, hnew⟩ := Option.bind_eq_some_iff.mp hnew
  obtain rfl := Option.some.inj h
  obtain rfl := Option.some.inj hnew
  show files.map FileLayout.path = _
  rw [place_paths hfiles, List.map_map]
  rfl

/-- The path of a file leads some plain steps down from the directory. -/
def Below (root : List Component) (path : Option (List Component)) : Prop :=
  ∃ names : List (List Char), names ≠ [] ∧ (∀ name ∈ names, Plain name) ∧
    path = some (root ++ names.map Component.normal)

theorem filePath_below {info : Info} (h : info.PlainNames) {layout : PieceLayout}
    (hpaths : layout.files.map FileLayout.path = info.files.map FileEntry.path)
    (p : Platform) (root : List Component) {f : FileLayout} (hf : f ∈ layout.files) :
    Below root (PieceStore.filePath p root info.name layout f) := by
  have hmem : f.path ∈ info.files.map FileEntry.path := by
    rw [← hpaths]
    exact List.mem_map_of_mem hf
  obtain ⟨e, he, hpath⟩ := List.mem_map.mp hmem
  have hsegs : ∀ name ∈ f.path.map String.toList, Plain name := by
    intro name hname
    obtain ⟨seg, hseg, rfl⟩ := List.mem_map.mp hname
    rw [← hpath] at hseg
    exact (h.files e he).2 seg hseg
  unfold PieceStore.filePath
  rw [h.name.push p]
  dsimp only [Option.bind_eq_bind, Option.bind_some]
  split
  · exact ⟨[info.name.toList], List.cons_ne_nil _ _, List.forall_mem_singleton.mpr h.name, rfl⟩
  · rw [push_all hsegs p]
    refine ⟨info.name.toList :: f.path.map String.toList, List.cons_ne_nil _ _,
      List.forall_mem_cons.mpr ⟨h.name, hsegs⟩, ?_⟩
    rw [Option.bind_some, List.nil_append, List.append_assoc, List.map_cons]
    rfl

variable {Hash : Type} {sha1 : List UInt8 → Hash} {decodeText : List UInt8 → String}

/-- **Torrents stay below the download directory.**  All names in an accepted torrent are plain, and
each file of the store lies below the directory, for every layout with the torrent's paths, in
particular that which an engine builds. -/
theorem paths_below {s : List UInt8} {m : TorrentMeta Hash}
    (h : parseTorrent sha1 decodeText s = .ok m ∨ parseInfoBytes sha1 decodeText s = .ok m) :
    m.info.PlainNames ∧
      (∀ layout, PieceLayout.ofInfo m.info = some layout →
        layout.files.map FileLayout.path = m.info.files.map FileEntry.path) ∧
      ∀ layout : PieceLayout, layout.files.map FileLayout.path = m.info.files.map FileEntry.path →
        ∀ f ∈ layout.files, ∀ p root,
          Below root (PieceStore.filePath p root m.info.name layout f) := by
  have hplain : m.info.PlainNames := by
    cases h with
    | inl h =>
      obtain ⟨_, _, _, v, -, -, -, hinfo, -⟩ := parseTorrent_ok sha1 decodeText h
      exact parseInfo_plainNames hinfo
    | inr h =>
      obtain ⟨v, hinfo⟩ := Info.parseInfoBytes_ok h
      exact parseInfo_plainNames hinfo
  exact ⟨hplain, fun layout => ofInfo_paths,
    fun layout hpaths f hf p root => filePath_below hplain hpaths p root hf⟩

/-- `d5:filesld6:lengthi3e4:pathl2:..5:a/b.ceee4:name4:../x12:piece lengthi2e6:pieces40:…e`. -/
def upwards : List UInt8 :=
  [100, 53, 58, 102, 105, 108, 101, 115, 108, 100, 54, 58, 108, 101, 110, 103, 116, 104, 105,
    51, 101, 52, 58, 112, 97, 116, 104, 108, 50, 58, 46, 46, 53, 58, 97, 47, 98, 46, 99, 101,
    101, 101, 52, 58, 110, 97, 109, 101, 52, 58, 46, 46, 47, 120, 49, 50, 58, 112, 105, 101, 99,
    101, 32, 108, 101, 110, 103, 116, 104, 105, 50, 101, 54, 58, 112, 105, 101, 99, 101, 115,
    52, 48, 58] ++
    List.replicate 40 0 ++ [101]

theorem upwards_below :
    ∃ m : TorrentMeta Unit, parseInfoBytes (fun _ => ()) asciiText upwards = .ok m ∧
      (m.info.files.map FileEntry.path).map (m.info.name :: ·) = [[".._x", "_", "a_b.c"]] ∧
      m.info.PlainNames := by
  have hrun : (match parseInfoBytes (fun _ => ()) asciiText upwards with
      | .error _ => none
      | .ok m => some ((m.info.files.map FileEntry.path).map (m.info.name :: ·))) =
        some [[".._x", "_", "a_b.c"]] := by
    decide +kernel
  cases hm : parseInfoBytes (fun _ => ()) asciiText upwards with
  | error e =>
    rw [hm] at hrun
    cases hrun
  | ok m =>
    rw [hm] at hrun
    exact ⟨m, rfl, Option.some.inj hrun, (paths_below (.inr hm)).1⟩

end Storage

end XferRust
