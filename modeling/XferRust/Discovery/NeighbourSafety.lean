import XferRust.Discovery.Neighbours
import XferRust.Playlist.ParseSafety

/-! # What a neighbour can break

The parsers of discovery cut texts where something was found in them, and bytes after a look at
their number: both are safe.  Two things are not.  The search for a location looks at the first nine
bytes of every longer line, and a line of another script may have a character across the ninth.  And
the address to control the gateway by is looked for from the first place of the type of service on,
wherever that is: it is of the same service exactly if that place is in the block of a service in
which an address follows.
-/
namespace XferRust.Discovery
open Guarded Utf8Slice
open Playlist (trim lower Cut)

variable {ι : Type}

/-! ## SSDP -/

/-- A line that begins with the name of the header and goes on behind it. -/
def IsLocation (line : List Char) : Prop :=
  ∃ head rest, line = head ++ rest ∧ rest ≠ [] ∧ lower head = "location:".toList

/-- All lines, up to the first with a location, can be cut behind nine bytes. -/
def ClearLines : List (List Char) → Prop
  | [] => True
  | line :: rest => Cut 9 line ∧ (¬IsLocation line → ClearLines rest)

/-- The lines of all datagrams that are text. -/
def heard (datagrams : List (List UInt8 × ι)) : List (List Char) :=
  datagrams.flatMap fun d => ((fromUtf8 (d.1.take 4096)).elim [] lines).map trim

theorem utf8Size_of_ascii {c : Char} (h : c.toNat ≤ 127) : c.utf8Size = 1 :=
  if_pos (UInt32.le_iff_toNat_le.mpr (show c.val.toNat ≤ (127 : UInt32).toNat from h))

theorem utf8Size_toLower (c : Char) : c.toLower.utf8Size = c.utf8Size := by
  by_cases h : c.val ≥ 'A'.val ∧ c.val ≤ 'Z'.val
  · have hle : c.toNat ≤ 90 := UInt32.le_iff_toNat_le.mp h.2
    have hlower : c.toLower.toNat = c.toNat + 32 := by
      have hval : c.toLower.val = c.val + 32 := by
        unfold Char.toLower
        rw [dif_pos h]
        rfl
      show c.toLower.val.toNat = c.val.toNat + 32
      rw [hval, UInt32.toNat_add]
      exact Nat.mod_eq_of_lt (show c.toNat + 32 < 4294967296 by omega)
    rw [utf8Size_of_ascii (by omega), utf8Size_of_ascii (by omega)]
  · have hsame : c.toLower = c := by
      unfold Char.toLower
      rw [dif_neg h]
    rw [hsame]

theorem byteLen_lower (l : List Char) : byteLen (lower l) = byteLen l := by
  induction l with
  | nil => rfl
  | cons c l ih =>
    show c.toLower.utf8Size + byteLen (lower l) = c.utf8Size + byteLen l
    rw [utf8Size_toLower, ih]

theorem byteLen_pos {l : List Char} (h : l ≠ []) : 0 < byteLen l := by
  obtain ⟨c, l, rfl⟩ := List.exists_cons_of_ne_nil h
  exact Nat.lt_of_lt_of_le c.utf8Size_pos (Nat.le_add_right _ _)

variable {desc line serviceType : List Char}

theorem locationOf_panics (h : ¬Cut 9 (trim line)) : locationOf line = .error .panic := by
  unfold locationOf
  dsimp only
  obtain ⟨hlong, hno⟩ := Classical.not_imp.mp h
  have hnone : sliceTo 9 (trim line) = none := by
    rw [← Option.not_isSome_iff_eq_none, sliceTo_isSome_iff]
    exact hno
  rw [if_pos hlong, hnone]
  rfl

theorem locationOf_some (h : IsLocation (trim line)) :
    ∃ location, locationOf line = .ok (some location) := by
  obtain ⟨head, rest, hline, hne, hhead⟩ := h
  have hlen : byteLen head = 9 := by
    rw [← byteLen_lower, hhead]
    decide
  have hpos := byteLen_pos hne
  refine ⟨trim rest, ?_⟩
  unfold locationOf
  dsimp only
  rw [hline, if_pos (by rw [byteLen_append]; omega), ← hlen, sliceTo_append]
  refine (if_pos hhead).trans ?_
  rw [sliceFrom_append]
  rfl

theorem locationOf_none (hcut : Cut 9 (trim line)) (h : ¬IsLocation (trim line)) :
    locationOf line = .ok none := by
  unfold locationOf
  dsimp only
  by_cases hlong : 9 < byteLen (trim line)
  · obtain ⟨head, rest, hline, hlen⟩ := hcut hlong
    have hne : rest ≠ [] := fun hnil => by
      rw [hline, hnil, List.append_nil, hlen] at hlong
      exact Nat.lt_irrefl 9 hlong
    have hslice : sliceTo 9 (trim line) = some head := by
      rw [hline, ← hlen]
      exact sliceTo_append head rest
    rw [if_pos hlong, hslice]
    exact if_neg fun hhead => h ⟨head, rest, hline, hne, hhead⟩
  · exact if_neg hlong

/-- The search over the lines of one datagram, by what it meets first. -/
theorem findLocation_eq (ls : List (List Char)) :
    (¬ClearLines (ls.map trim) ∧ findLocation ls = .error .panic) ∨
    (ClearLines (ls.map trim) ∧ (∃ line ∈ ls.map trim, IsLocation line) ∧
      ∃ location, findLocation ls = .ok (some location)) ∨
    (ClearLines (ls.map trim) ∧ (∀ line ∈ ls.map trim, ¬IsLocation line) ∧
      findLocation ls = .ok none) := by
  induction ls with
  | nil => exact .inr (.inr ⟨trivial, fun _ h => (List.not_mem_nil h).elim, rfl⟩)
  | cons line ls ih =>
    rw [findLocation, List.map_cons, ClearLines]
    by_cases hcut : Cut 9 (trim line)
    case neg => exact .inl ⟨fun h => hcut h.1, by rw [locationOf_panics hcut]; rfl⟩
    by_cases hloc : IsLocation (trim line)
    · obtain ⟨location, hfound⟩ := locationOf_some hloc
      refine .inr (.inl ⟨⟨hcut, fun h => absurd hloc h⟩, ⟨_, List.mem_cons_self, hloc⟩, location, ?_⟩)
      rw [hfound]
      rfl
    · rw [locationOf_none hcut hloc]
      rcases ih with ⟨hno, hpanic⟩ | ⟨hclear, ⟨m, hm, hmloc⟩, hfound⟩ | ⟨hclear, hnone, hfound⟩
      · exact .inl ⟨fun h => hno (h.2 hloc), hpanic⟩
      · exact .inr (.inl ⟨⟨hcut, fun _ => hclear⟩, ⟨m, List.mem_cons_of_mem _ hm, hmloc⟩, hfound⟩)
      · exact .inr (.inr ⟨⟨hcut, fun _ => hclear⟩, List.forall_mem_cons.mpr ⟨hloc, hnone⟩, hfound⟩)

theorem clearLines_append {l m : List (List Char)} :
    ClearLines (l ++ m) ↔
      ClearLines l ∧ ((∀ line ∈ l, ¬IsLocation line) → ClearLines m) := by
  induction l with
  | nil => exact ⟨fun h => ⟨trivial, fun _ => h⟩, fun h => h.2 fun _ hl => (List.not_mem_nil hl).elim⟩
  | cons line l ih =>
    rw [List.cons_append, ClearLines, ClearLines, ih, List.forall_mem_cons]
    constructor
    · exact fun h => ⟨⟨h.1, fun hno => (h.2 hno).1⟩, fun hall => (h.2 hall.1).2 hall.2⟩
    · exact fun h => ⟨h.1.1, fun hno => ⟨h.1.2 hno, fun hall => h.2 ⟨hno, hall⟩⟩⟩

/-- **The search for a gateway panics** exactly at a line that cannot be cut. -/
theorem upnpSsdpDiscover_safe_iff (datagrams : List (List UInt8 × ι)) :
    Safe (upnpSsdpDiscover datagrams) ↔ ClearLines (heard datagrams) := by
  induction datagrams with
  | nil => exact iff_of_true (ensures_fail _) trivial
  | cons d datagrams ih =>
    obtain ⟨datagram, source⟩ := d
    have hheard : heard ((datagram, source) :: datagrams) =
        ((fromUtf8 (datagram.take 4096)).elim [] lines).map trim ++ heard datagrams := rfl
    rw [upnpSsdpDiscover, hheard]
    cases htext : fromUtf8 (datagram.take 4096) with
    | none => exact ih
    | some text =>
      rw [Option.elim_some, clearLines_append]
      dsimp only
      rcases findLocation_eq (lines text) with
        ⟨hno, hpanic⟩ | ⟨hclear, ⟨m, hm, hmloc⟩, location, hfound⟩ | ⟨hclear, hnone, hfound⟩
      · rw [hpanic]
        exact iff_of_false (fun h => h) fun h => hno h.1
      · rw [hfound]
        exact iff_of_true (ensures_ok trivial) ⟨hclear, fun h => absurd hmloc (h m hm)⟩
      · rw [hfound]
        exact ih.trans ⟨fun h => ⟨hclear, fun _ => h⟩, fun h => h.2 hnone⟩

/-! ## LSD -/

theorem parseAnnounceMessage_safe (toLowercase : List Char → List Char) (data : List UInt8)
    (target : Octets 20) (myCookie : List Char) :
    Safe (parseAnnounceMessage toLowercase data target myCookie) := by
  unfold parseAnnounceMessage
  split
  · exact ensures_ok trivial
  · refine ensures_ite (fun _ => ensures_ok trivial) fun _ => ?_
    refine ensures_ite (fun _ => ensures_ok trivial) fun _ => ?_
    split
    · exact ensures_ok trivial
    · exact ensures_ok trivial

theorem listen_safe [DecidableEq ι] (toLowercase : List Char → List Char) (target : Octets 20)
    (cookie : List Char) (datagrams : List (List UInt8 × ι)) (found : List (ι × UInt16)) :
    Safe (listen toLowercase target cookie datagrams found) := by
  induction datagrams generalizing found with
  | nil => exact ensures_ok trivial
  | cons d datagrams ih =>
    obtain ⟨datagram, source⟩ := d
    rw [listen]
    refine (parseAnnounceMessage_safe toLowercase _ target cookie).bind fun port _ => ?_
    cases port with
    | none => exact ih found
    | some port => exact ensures_ite (fun _ => ensures_ok trivial) fun _ => ih _

/-! ## NAT-PMP -/

theorem u16At_safe {data : List UInt8} {i : Nat} (h : i + 1 < data.length) :
    Safe (u16At data i) := by
  refine (ensures_index (by omega)).bind fun _ _ => ?_
  exact (ensures_index h).bind fun _ _ => ensures_ok trivial

theorem u32At_safe {data : List UInt8} {i : Nat} (h : i + 4 ≤ data.length) :
    Safe (u32At data i) := by
  refine (ensures_slice (Nat.le_add_right i 4) h).bind fun bytes hlen => ?_
  match bytes, hlen with
  | [a, b, c, d], _ => exact ensures_ok trivial
  | [], hlen | [_], hlen | [_, _], hlen | [_, _, _], hlen | _ :: _ :: _ :: _ :: _ :: _, hlen =>
    simp only [List.length_cons, List.length_nil] at hlen
    omega

theorem parseNatPmpResponse_safe (data : List UInt8) (expectedOp internalPort : UInt16)
    (protocol : PortMappingProtocol) (externalIp : Octets 4) :
    Safe (parseNatPmpResponse data expectedOp internalPort protocol externalIp) := by
  refine ensures_ite (fun _ => ensures_fail _) fun hlen => ?_
  have hlong : 16 ≤ data.length := Nat.le_of_not_lt hlen
  refine (ensures_index (by omega)).bind fun _ _ => ?_
  refine (ensures_index (by omega)).bind fun _ _ => ?_
  refine (u16At_safe (by omega)).bind fun _ _ => ?_
  refine ensures_ite (fun _ => ensures_fail _) fun _ => ?_
  refine ensures_ite (fun _ => ensures_fail _) fun _ => ?_
  refine ensures_ite (fun _ => ensures_fail _) fun _ => ?_
  refine (u16At_safe (by omega)).bind fun _ _ => ?_
  exact (u32At_safe (by omega)).bind fun _ _ => ensures_ok trivial

theorem externalAddress_safe (datagram : List UInt8) : Safe (externalAddress datagram) := by
  refine ensures_ite (fun _ => ensures_fail _) fun _ => ?_
  have hlen : (received 12 datagram).length = 12 := by
    rw [received, List.length_take, List.length_append, List.length_replicate]
    omega
  refine (ensures_index (by omega)).bind fun _ _ => ?_
  refine (ensures_index (by omega)).bind fun _ _ => ?_
  refine (u16At_safe (by omega)).bind fun _ _ => ?_
  refine ensures_ite (fun _ => ensures_fail _) fun _ => ?_
  refine ensures_ite (fun _ => ensures_fail _) fun _ => ?_
  refine ensures_ite (fun _ => ensures_fail _) fun _ => ?_
  exact (ensures_slice (by decide) (by omega)).bind fun _ _ => ensures_ok trivial

theorem natPmpMapPort_safe (first second : Option (List UInt8)) (internalPort : UInt16)
    (protocol : PortMappingProtocol) : Safe (natPmpMapPort first second internalPort protocol) := by
  unfold natPmpMapPort
  cases first with
  | none => exact ensures_fail _
  | some datagram =>
    refine (externalAddress_safe datagram).bind fun externalIp _ => ?_
    cases second with
    | none => exact ensures_fail _
    | some datagram => exact parseNatPmpResponse_safe _ _ _ _ _

/-! ## The address to control the gateway by -/

theorem expect_some {α : Type} {o : Option α} {a : α} (h : o = some a) :
    (expect o : Guarded String α) = .ok a := by
  rw [h]
  rfl

theorem originOf_returns (base : List Char) : Returns (originOf base) := by
  unfold originOf
  split
  · exact returns_ok _
  · rename_i schemeEnd hscheme
    obtain ⟨a, b, rfl, rfl, -⟩ := find_eq_some (by decide) hscheme
    have hmarker : byteLen "://".toList = 3 := by decide
    have hstart : byteLen a + 3 = byteLen (a ++ "://".toList) := by
      rw [byteLen_append, hmarker]
    dsimp only
    rw [hstart, ← List.append_assoc, expect_some (sliceFrom_append _ b), ok_bind]
    split
    · exact returns_ok _
    · rename_i i hslash
      obtain ⟨c, d, rfl, rfl, -⟩ := find_eq_some (by decide) hslash
      rw [← byteLen_append, ← List.append_assoc, expect_some (sliceTo_append _ _), ok_bind,
        expect_some (sliceFrom_append _ _), ok_bind]
      exact returns_ok _

theorem dirOf_returns (basePath : List Char) : Returns (dirOf basePath) := by
  unfold dirOf
  split
  · rename_i i hslash
    obtain ⟨a, b, rfl, rfl⟩ := rfindChar_eq_some hslash
    have hend : byteLen a + 1 = byteLen (a ++ ['/']) := by
      rw [byteLen_append]
      rfl
    have hsplit : a ++ '/' :: b = (a ++ ['/']) ++ b := by
      rw [List.append_assoc]
      rfl
    rw [hend, hsplit, expect_some (sliceTo_append _ b)]
    exact returns_ok _
  · exact returns_ok _

/-- **Joining an address never cuts inside a character.** -/
theorem joinUrl_returns (baseUrl path : List Char) : Returns (joinUrl baseUrl path) := by
  unfold joinUrl
  split
  · exact returns_ok _
  · obtain ⟨⟨origin, basePath⟩, horigin⟩ := originOf_returns ((baseUrl.splitOn '#').headD baseUrl)
    dsimp only
    rw [horigin, ok_bind]
    dsimp only
    split
    · exact returns_ok _
    · obtain ⟨dir, hdir⟩ := dirOf_returns basePath
      rw [hdir]
      exact returns_ok _

/-- What one round cuts out: behind the first place of the type, the text between the first tag
that opens an address and the first that closes one behind it. -/
structure Cuts (desc serviceType pre front value post : List Char) : Prop where
  text : desc = pre ++ (front ++ (openUrl ++ (value ++ (closeUrl ++ post))))
  type : serviceType <+: front ++ (openUrl ++ (value ++ (closeUrl ++ post)))
  typeFirst : Search.FirstAt serviceType pre
  urlFirst : Search.FirstAt openUrl front
  closeFirst : Search.FirstAt closeUrl value

/-- **A round never cuts inside a character**, and a path that it finds is cut out. -/
theorem controlPath_spec (desc : List Char) (hne : serviceType ≠ []) :
    ∃ found, controlPath desc serviceType = .ok found ∧ ∀ path, found = some path →
      ∃ pre front value post, Cuts desc serviceType pre front value post ∧ path = trim value := by
  have hnothing : ∃ found, (Except.ok none : Guarded String (Option (List Char))) = .ok found ∧
      ∀ path, found = some path → ∃ pre front value post,
        Cuts desc serviceType pre front value post ∧ path = trim value :=
    ⟨none, rfl, fun _ h => by cases h⟩
  unfold controlPath
  split
  · exact hnothing
  rename_i stPos htype
  obtain ⟨pre, tail, rfl, rfl, htypeFirst⟩ := find_eq_some hne htype
  rw [expect_some (sliceFrom_append pre _), ok_bind]
  dsimp only
  have hprefix : serviceType <+: serviceType ++ tail := List.prefix_append _ _
  generalize serviceType ++ tail = after at hprefix hnothing
  split
  · exact hnothing
  rename_i ctrlStart hctrl
  split
  · exact hnothing
  obtain ⟨front, rest, rfl, rfl, hurlFirst⟩ := find_eq_some (by decide) hctrl
  have hbehind : sliceFrom (byteLen front + byteLen openUrl) (front ++ (openUrl ++ rest)) =
      some rest := by
    rw [← byteLen_append, ← List.append_assoc]
    exact sliceFrom_append _ rest
  rw [expect_some hbehind, ok_bind]
  split
  · exact hnothing
  rename_i ctrlEnd hclose
  obtain ⟨value, post, rfl, rfl, hcloseFirst⟩ := find_eq_some (by decide) hclose
  have hvalue : Utf8Slice.slice (byteLen front + byteLen openUrl)
      (byteLen front + byteLen openUrl + byteLen value)
      (front ++ (openUrl ++ (value ++ (closeUrl ++ post)))) = some value := by
    rw [← byteLen_append, ← List.append_assoc]
    exact slice_append _ value _
  rw [expect_some hvalue, ok_bind]
  split
  · exact hnothing
  · refine ⟨_, rfl, fun path hpath => ⟨pre, front, value, post, ?_, (Option.some.inj hpath).symm⟩⟩
    exact ⟨rfl, hprefix, htypeFirst, hurlFirst, hcloseFirst⟩

/-- The block of a service in which a type first stands: `front` is in front of its place, and the
type begins `body`. -/
structure Block (desc serviceType before front body behind : List Char) : Prop where
  text : desc = before ++ (openService ++ (front ++ (body ++ (closeService ++ behind))))
  first : Search.FirstAt serviceType (before ++ (openService ++ front))
  type : serviceType <+: body
  noOpen : ¬openService <:+: front ++ body
  noClose : ¬closeService <:+: front ++ body

/-- The type first stands in the block of a service, and an address follows in the block. -/
def InBlock (desc serviceType : List Char) : Prop :=
  ∃ before front body behind, Block desc serviceType before front body behind ∧
    ∃ x value y, body = x ++ (openUrl ++ (value ++ (closeUrl ++ y)))

/-- An address is that of the block in which the type first stands. -/
def FromBlock (desc baseUrl url serviceType : List Char) : Prop :=
  ∃ before front body behind, Block desc serviceType before front body behind ∧
    ∃ x value y, body = x ++ (openUrl ++ (value ++ (closeUrl ++ y))) ∧
      joinUrl baseUrl (trim value) = .ok url

/-- Two ways to cut a text at the first place of the type are one. -/
theorem Cuts.after_eq {pre front value post before front' body behind : List Char}
    (h : Cuts desc serviceType pre front value post)
    (hb : Block desc serviceType before front' body behind) :
    front ++ (openUrl ++ (value ++ (closeUrl ++ post))) = body ++ (closeService ++ behind) := by
  obtain ⟨rest, hrest⟩ := h.type
  obtain ⟨rest', hrest'⟩ := hb.type
  have htext := h.text.symm.trans hb.text
  have hsame : pre ++ (serviceType ++ rest) =
      (before ++ (openService ++ front')) ++ (serviceType ++ (rest' ++ (closeService ++ behind))) := by
    rw [hrest, htext, ← hrest']
    simp only [List.append_assoc]
  obtain ⟨-, hrests⟩ := h.typeFirst.unique hb.first hsame
  rw [← hrest, hrests, ← hrest']
  simp only [List.append_assoc]

/-- The first address behind the type is in the block, if there is one in the block at all. -/
theorem Cuts.inBlock {pre front value post before front' body behind : List Char}
    (h : Cuts desc serviceType pre front value post)
    (hb : Block desc serviceType before front' body behind)
    (hthere : ∃ x v y, body = x ++ (openUrl ++ (v ++ (closeUrl ++ y)))) :
    ∃ y, body = front ++ (openUrl ++ (value ++ (closeUrl ++ y))) := by
  obtain ⟨x, v, y, hbody⟩ := hthere
  have hafter := h.after_eq hb
  have hafter' : front ++ (openUrl ++ (value ++ (closeUrl ++ post))) =
      x ++ (openUrl ++ (v ++ (closeUrl ++ (y ++ (closeService ++ behind))))) := by
    rw [hafter, hbody]
    simp only [List.append_assoc]
  -- The first place is not behind a place in the block.
  have hfront : front.length ≤ x.length := by
    have hplace : openUrl <+: (x ++ (openUrl ++ (v ++ (closeUrl ++
        (y ++ (closeService ++ behind)))))).drop x.length := by
      rw [List.drop_left]
      exact List.prefix_append _ _
    obtain ⟨pre', rest, heq, hle, hfirst⟩ := Search.exists_firstAt (by decide) hplace
    obtain ⟨rfl, -⟩ := h.urlFirst.unique hfirst (hafter'.trans heq)
    exact hle
  -- Behind it, the first closing tag is not behind the one in the block.
  have hvalue : front.length + openUrl.length + value.length ≤
      x.length + openUrl.length + v.length := by
    have hplace : closeUrl <+: (value ++ (closeUrl ++ post)).drop
        (x.length + openUrl.length + v.length - (front.length + openUrl.length)) := by
      have hbehind : value ++ (closeUrl ++ post) =
          (front ++ (openUrl ++ (value ++ (closeUrl ++ post)))).drop
            (front.length + openUrl.length) := by
        rw [← List.drop_drop, List.drop_left, List.drop_left]
      have hsum : front.length + openUrl.length +
          (x.length + openUrl.length + v.length - (front.length + openUrl.length)) =
          x.length + (openUrl.length + v.length) := by omega
      rw [hbehind, List.drop_drop, hsum, hafter', ← List.drop_drop, List.drop_left,
        ← List.drop_drop, List.drop_left, List.drop_left]
      exact List.prefix_append _ _
    obtain ⟨pre', rest, heq, hle, hfirst⟩ := Search.exists_firstAt (by decide) hplace
    obtain ⟨rfl, -⟩ := h.closeFirst.unique hfirst heq
    omega
  have hcut : (front ++ (openUrl ++ (value ++ closeUrl))) <+: body ++ (closeService ++ behind) := by
    rw [← hafter]
    exact ⟨post, by simp only [List.append_assoc]⟩
  have hfit : (front ++ (openUrl ++ (value ++ closeUrl))).length ≤ body.length := by
    rw [hbody]
    simp only [List.length_append]
    omega
  obtain ⟨y', hy'⟩ := List.prefix_of_prefix_length_le hcut (List.prefix_append _ _) hfit
  exact ⟨y', by rw [← hy']; simp only [List.append_assoc]⟩

/-- The type for which a path is found. -/
def Chosen (desc serviceType : List Char) : Prop :=
  igdServiceTypes.find? (fun t => decide (controlPath desc t ≠ .ok none)) = some serviceType

theorem ne_nil_of_mem (h : serviceType ∈ igdServiceTypes) : serviceType ≠ [] := by
  have hall : ∀ t ∈ igdServiceTypes, t ≠ [] := by decide
  exact hall serviceType h

/-- The rounds, up to the first in which a path is found. -/
theorem extractLoop_spec (desc baseUrl : List Char) (types : List (List Char))
    (hne : ∀ t ∈ types, t ≠ []) :
    Ensures (extractLoop desc baseUrl types) fun out => ∃ path,
      types.find? (fun t => decide (controlPath desc t ≠ .ok none)) = some out.2 ∧
        controlPath desc out.2 = .ok (some path) ∧ joinUrl baseUrl path = .ok out.1 := by
  induction types with
  | nil => exact ensures_fail _
  | cons t types ih =>
    obtain ⟨ht, htypes⟩ := List.forall_mem_cons.mp hne
    obtain ⟨found, hfound, -⟩ := controlPath_spec desc ht
    rw [extractLoop, hfound, ok_bind]
    cases found with
    | none =>
      rw [List.find?_cons_of_neg (by rw [hfound]; decide)]
      exact ih htypes
    | some path =>
      obtain ⟨url, hurl⟩ := joinUrl_returns baseUrl path
      dsimp only
      rw [hurl]
      refine ensures_ok ⟨path, ?_, hfound, hurl⟩
      rw [List.find?_cons_of_pos (by rw [hfound]; simp)]

theorem extractLoop_chosen (baseUrl : List Char) {types : List (List Char)}
    (hne : ∀ t ∈ types, t ≠ [])
    (h : types.find? (fun t => decide (controlPath desc t ≠ .ok none)) = some serviceType) :
    ∃ url, extractLoop desc baseUrl types = .ok (url, serviceType) := by
  induction types with
  | nil => cases h
  | cons t types ih =>
    obtain ⟨ht, htypes⟩ := List.forall_mem_cons.mp hne
    obtain ⟨found, hfound, -⟩ := controlPath_spec desc ht
    rw [extractLoop, hfound, ok_bind]
    cases found with
    | none =>
      rw [List.find?_cons_of_neg (by rw [hfound]; decide)] at h
      exact ih htypes h
    | some path =>
      rw [List.find?_cons_of_pos (by rw [hfound]; simp)] at h
      obtain rfl := Option.some.inj h
      obtain ⟨url, hurl⟩ := joinUrl_returns baseUrl path
      dsimp only
      rw [hurl]
      exact ⟨url, rfl⟩

/-- **An address is of the block of its type** exactly if the type first stands in a block with an
address behind it. -/
theorem fromBlock_iff (desc baseUrl : List Char) :
    (∀ url serviceType, extractControlUrl desc baseUrl = .ok (url, serviceType) →
        FromBlock desc baseUrl url serviceType) ↔
      ∀ serviceType, Chosen desc serviceType → InBlock desc serviceType := by
  constructor
  · intro h serviceType hchosen
    obtain ⟨url, hurl⟩ := extractLoop_chosen baseUrl (fun _ => ne_nil_of_mem) hchosen
    obtain ⟨before, front, body, behind, hblock, x, value, y, hbody, -⟩ := h url serviceType hurl
    exact ⟨before, front, body, behind, hblock, x, value, y, hbody⟩
  · intro h url serviceType hurl
    have hspec := extractLoop_spec desc baseUrl igdServiceTypes fun _ => ne_nil_of_mem
    obtain ⟨path, hchosen, hpath, hjoin⟩ := hspec.of_ok hurl
    obtain ⟨before, front, body, behind, hblock, hthere⟩ := h serviceType hchosen
    have hne := ne_nil_of_mem (List.mem_of_find?_eq_some hchosen)
    obtain ⟨found, hfound, hcut⟩ := controlPath_spec desc hne
    obtain rfl := Except.ok.inj (hpath.symm.trans hfound)
    obtain ⟨pre, front', value, post, hcuts, rfl⟩ := hcut path rfl
    obtain ⟨y, hbody⟩ := hcuts.inBlock hblock hthere
    exact ⟨before, front, body, behind, hblock, front', value, y, hbody, hjoin⟩

/-! ## All of it -/

/-- **What it takes to survive the neighbours**: no line that is looked at has a character across
its ninth byte, and the type of service for which a path is found first stands in the block of a
service that has an address behind it.  Nothing else that is received can break a parser. -/
theorem survives_iff [DecidableEq ι] (toLowercase : List Char → List Char)
    (answers announcements : List (List UInt8 × ι)) (target : Octets 20) (cookie : List Char)
    (first second : Option (List UInt8)) (internalPort : UInt16) (protocol : PortMappingProtocol)
    (desc location : List Char) :
    (Safe (upnpSsdpDiscover answers) ∧
      Safe (listen toLowercase target cookie announcements []) ∧
      Safe (natPmpMapPort first second internalPort protocol) ∧
      Safe (extractControlUrl desc location) ∧
      ∀ url serviceType, extractControlUrl desc location = .ok (url, serviceType) →
        FromBlock desc location url serviceType) ↔
    ClearLines (heard answers) ∧ ∀ serviceType, Chosen desc serviceType → InBlock desc serviceType := by
  rw [upnpSsdpDiscover_safe_iff, fromBlock_iff]
  constructor
  · rintro ⟨hclear, -, -, -, hblock⟩
    exact ⟨hclear, hblock⟩
  · rintro ⟨hclear, hblock⟩
    refine ⟨hclear, listen_safe _ _ _ _ _, natPmpMapPort_safe _ _ _ _, ?_, hblock⟩
    exact (extractLoop_spec desc location _ fun _ => ne_nil_of_mem).safe

/-- A line of eight letters and an `é`. -/
def accented : List UInt8 := [97, 97, 97, 97, 97, 97, 97, 97, 0xC3, 0xA9]

/-- A description that speaks of a type of service before the block of another one. -/
def talkative : List Char :=
  ("<m>urn:schemas-upnp-org:service:WANIPConnection:1</m><service><serviceType>x</serviceType>" ++
    "<controlURL>/x</controlURL></service>").toList

/-- **An answer of ten bytes** ends the search with a panic, and a type that is only spoken of is
given the address of another service. -/
theorem accented_talkative :
    ¬Safe (upnpSsdpDiscover [(accented, ())]) ∧
      extractControlUrl talkative "http://a/d.xml".toList =
        .ok ("http://a/x".toList, "urn:schemas-upnp-org:service:WANIPConnection:1".toList) ∧
      ¬FromBlock talkative "http://a/d.xml".toList "http://a/x".toList
        "urn:schemas-upnp-org:service:WANIPConnection:1".toList := by
  refine ⟨?_, by decide +kernel, ?_⟩
  · have hpanic : upnpSsdpDiscover [(accented, ())] = .error .panic := by decide +kernel
    rw [hpanic]
    exact fun h => h
  · rintro ⟨before, front, body, behind, hblock, -⟩
    obtain ⟨rest, hrest⟩ := hblock.type
    have hplace := Search.position_append (by decide) hblock.first
      (rest ++ (closeService ++ behind))
    have htext : (before ++ (openService ++ front)) ++
        ("urn:schemas-upnp-org:service:WANIPConnection:1".toList ++
          (rest ++ (closeService ++ behind))) = talkative := by
      rw [hblock.text, ← hrest]
      simp only [List.append_assoc]
    have hthird : Search.position "urn:schemas-upnp-org:service:WANIPConnection:1".toList
        talkative = some 3 := by decide +kernel
    rw [htext, hthird] at hplace
    have hlen := Option.some.inj hplace
    have hopen : openService.length = 9 := by decide
    simp only [List.length_append, hopen] at hlen
    omega

end XferRust.Discovery
