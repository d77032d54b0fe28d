import XferRust.Lib.Directory

/-! # The files of incoming LAN transfers

A transfer that is offered looks for a name under which neither the file nor its `.part` is there,
creates the `.part`, writes into it what it receives, looks again whether the name is free, and
renames the `.part`.  Each look is one step, and what is done after it another: the other transfers
can take theirs in between.

A directory is of any type `δ`; a place is a directory and a name in it.
-/
namespace XferRust.Lan

/-! ## Names -/

/-- `split_ext`. -/
def splitExt (name : List Char) : List Char × List Char :=
  match name.reverse.findIdx? fun c => c = '.' with
  | none => (name, [])
  | some back =>
    let index := name.length - 1 - back
    if 0 < index ∧ index + 1 < name.length then (name.take index, name.drop index) else (name, [])

/-- The `n`-th of the names that are tried. -/
def numbered (stem ext : List Char) (n : Nat) : List Char :=
  if n = 0 then stem ++ ext else stem ++ [' ', '('] ++ Nat.toDigits 10 n ++ [')'] ++ ext

/-- `{base}.part` -/
def partName (base : List Char) : List Char := base ++ ['.', 'p', 'a', 'r', 't']

/-- A directory and a name in it. -/
abbrev Place (δ : Type) := δ × List Char

section
variable {δ : Type} [DecidableEq δ]

/-- The first of the names from `n` on that will do. -/
def tryNames (free : List Char → Bool) (stem ext : List Char) : Nat → Nat → Option (List Char)
  | 0, _ => none
  | rounds + 1, n =>
    let base := numbered stem ext n
    if free base then some base else tryNames free stem ext rounds (n + 1)

/-- The name that `reserve_pair` finds, if it finds one. -/
def freePair (files : Directory (Place δ)) (dir : δ) (name : List Char) : Option (List Char) :=
  tryNames (fun base => ¬files.Has (dir, base) ∧ ¬files.Has (dir, partName base))
    (splitExt name).1 (splitExt name).2 10000 0

/-- `reserve_pair`: the places of the `.part` and of the file.  `random` is what `random_hex` gives
where all names are taken. -/
def reservePair (files : Directory (Place δ)) (dir : δ) (name random : List Char) :
    Place δ × Place δ :=
  let base := (freePair files dir name).getD (random ++ ['-'] ++ name)
  ((dir, partName base), (dir, base))

/-- The name that `unique_final` finds, if it finds one. -/
def freeFinal (files : Directory (Place δ)) (dir : δ) (name : List Char) : Option (List Char) :=
  tryNames (fun base => ¬files.Has (dir, base)) (splitExt name).1 (splitExt name).2 10000 0

/-- `unique_final`. -/
def uniqueFinal (files : Directory (Place δ)) (dir : δ) (name random : List Char) : Place δ :=
  (dir, (freeFinal files dir name).getD (random ++ ['-'] ++ name))

/-- The place to which the `.part` is renamed: the reserved one, if it is still free. -/
def chooseFinal (files : Directory (Place δ)) (dir : δ) (name random : List Char)
    (reserved : Place δ) : Place δ :=
  if files.Has reserved then uniqueFinal files dir name random else reserved

/-! ## Transfers -/

/-- Where `receive_one` is.  An open file is known by its number. -/
inductive Phase (δ : Type) where
  /-- The offer is read. -/
  | offered
  /-- The pair is reserved, and `File::create` is under way. -/
  | creating (part final : Place δ)
  /-- The `.part` is created, and the answer is under way. -/
  | accepting (part final : Place δ) (file : Nat)
  | receiving (part final : Place δ) (file : Nat)
  /-- The file is complete, and `rename` is under way. -/
  | moving (part target : Place δ) (file : Nat)
  /-- The transfer has failed, and `remove_file` is under way. -/
  | removing (part : Place δ) (file : Nat)
  /-- The task is done and has recorded the path. -/
  | done (path : Place δ) (file : Nat)
  | failed
  deriving DecidableEq

/-- An incoming transfer, with what it has received. -/
structure Incoming (δ : Type) where
  dir : δ
  name : List Char
  received : List UInt8
  phase : Phase δ

/-- The files, and all transfers there have been. -/
structure Receiving (δ : Type) where
  files : Directory (Place δ)
  transfers : List (Incoming δ)

/-- What the transfer does next; `ok` says how an operation ends. -/
inductive Act where
  | reserve (random : List Char)
  | create (ok : Bool)
  | accept (ok : Bool)
  /-- A frame is received and written. -/
  | write (bytes : List UInt8)
  /-- A frame cannot be read, opened or written, or the transfer is cancelled. -/
  | fail
  /-- The end frame is received; the name is looked at again. -/
  | finish (random : List Char)
  | rename (ok : Bool)
  | remove

/-- What follows a `rename`, by the files after it; none if it has failed. -/
def Incoming.renamed (t : Incoming δ) (files : Directory (Place δ)) (part target : Place δ)
    (file : Nat) : Option (Directory (Place δ)) → Directory (Place δ) × Incoming δ
  | some files => (files, { t with phase := .done target file })
  | none => (files, { t with phase := .removing part file })

/-- One step of one transfer: the files and the transfer afterwards. -/
def Incoming.step (t : Incoming δ) (files : Directory (Place δ)) :
    Act → Option (Directory (Place δ) × Incoming δ)
  | .reserve random =>
    match t.phase with
    | .offered =>
      let pair := reservePair files t.dir t.name random
      some (files, { t with phase := .creating pair.1 pair.2 })
    | _ => none
  | .create ok =>
    match t.phase with
    | .creating part final =>
      if ok then
        let opened := files.create part
        some (opened.1, { t with phase := .accepting part final opened.2 })
      else some (files, { t with phase := .failed })
    | _ => none
  | .accept ok =>
    match t.phase with
    | .accepting part final file =>
      some (files, { t with
        phase := if ok then .receiving part final file else .removing part file })
    | _ => none
  | .write bytes =>
    match t.phase with
    | .receiving _ _ file =>
      some (files.write file t.received.length bytes, { t with received := t.received ++ bytes })
    | _ => none
  | .fail =>
    match t.phase with
    | .receiving part _ file => some (files, { t with phase := .removing part file })
    | _ => none
  | .finish random =>
    match t.phase with
    | .receiving part final file =>
      some (files, { t with
        phase := .moving part (chooseFinal files t.dir t.name random final) file })
    | _ => none
  | .rename ok =>
    match t.phase with
    | .moving part target file =>
      some (t.renamed files part target file (if ok then files.rename part target else none))
    | _ => none
  | .remove =>
    match t.phase with
    | .removing part _ => some (files.remove part, { t with phase := .failed })
    | _ => none

/-- What can happen next. -/
inductive Move (δ : Type) where
  /-- An offer comes in. -/
  | offer (dir : δ) (name : List Char)
  /-- A transfer takes a step. -/
  | act (i : Nat) (a : Act)

def Receiving.step (s : Receiving δ) : Move δ → Option (Receiving δ)
  | .offer dir name =>
    some { s with
      transfers := s.transfers ++ [{ dir, name, received := [], phase := .offered }] }
  | .act i a =>
    match s.transfers[i]? with
    | none => none
    | some t => (t.step s.files a).map fun r =>
      { files := r.1, transfers := s.transfers.set i r.2 }

/-- Moves one after the other. -/
def Receiving.run (s : Receiving δ) : List (Move δ) → Option (Receiving δ)
  | [] => some s
  | m :: ms => (s.step m).bind fun s => s.run ms

end

end XferRust.Lan
