import Mathlib.Data.List.AList
import Mathlib.Data.Nat.Digits.Defs
import Mathlib.Logic.Function.Basic
import Gitility.Mirror.Metadata

/-!
# The server of a local object store

`lib/gitility/object_store/local/server.ex`: the process that keeps the pins and the holds of one root,
moves the `current` pointer of a key and sweeps versions that nothing needs. A `meta` file is kept as the
term that it holds. Temporary files, the `key` file and the hook after a commit are left out.
-/

namespace Gitility.LocalStore

open Gitility.Mirror (Metadata)

/-! ### Files -/

/-- The term of a `meta` file. -/
structure Meta where
  etag : Bytes
  size : ℕ
  metadata : Metadata
  deriving DecidableEq

/-- The bytes of a binary in the external term format. -/
def binarySize (bytes : Bytes) : ℕ := 5 + bytes.length

/-- The bytes of a number in the external term format. -/
def integerSize (n : ℕ) : ℕ :=
  if n < 256 then 2 else if n < 2 ^ 31 then 5 else 3 + (Nat.digits 256 n).length

/-- The `byte_size` of `term_to_binary` for the term of a `meta` file. -/
def Meta.termSize (info : Meta) : ℕ :=
  6 + (binarySize (Bytes.ascii "etag") + binarySize info.etag) +
    (binarySize (Bytes.ascii "size") + integerSize info.size) +
    (binarySize (Bytes.ascii "metadata") + 5 +
      (info.metadata.map fun e ↦ binarySize e.1 + binarySize e.2).sum)

/-- A directory `v-<version>`, with its files `data` and `meta`. -/
structure VersionDir where
  data : Option Bytes := none
  metaFile : Option Meta := none
  deriving DecidableEq

/-- The directory of a key: its `current` file, and its versions. -/
structure ObjectDir where
  current : Option Bytes := none
  versions : Bytes → Option VersionDir := fun _ ↦ none

/-- `root/objects`, by the hashes of the keys. A directory that is missing is empty. -/
abbrev Objects := Bytes → ObjectDir

/-- How far `rm_rf` of a directory came. -/
inductive Removal where
  | stopped (data info : Bool)
  | complete

/-- What `rm_rf` leaves. -/
def Removal.leaves (removal : Removal) (dir : VersionDir) : Option VersionDir :=
  match removal with
  | .stopped data info =>
    some ⟨if data then none else dir.data, if info then none else dir.metaFile⟩
  | .complete => none

/-! ### Answers -/

/-- The reasons `{:adapter, reason}`. -/
inductive AdapterReason where
  | badReturn
  | corruptMeta
  | hashCollision
  | io
  | serverUnavailable
  | shortBody
  | versionCollision
  deriving DecidableEq

/-- The reasons `{:transport, reason}`. -/
inductive TransportReason where
  | closed
  | timeout
  deriving DecidableEq

/-- A reason for an error. -/
inductive Reason where
  | notFound
  | preconditionFailed
  | transport (reason : TransportReason)
  | adapter (reason : AdapterReason)
  deriving DecidableEq

/-- A call. `hash` is the hash of a key. -/
inductive Request where
  | pin (hash : Bytes)
  | unpin (version : Bytes)
  | hold (ref : ℕ)
  | claim (ref : ℕ) (version : Bytes)
  | release (ref : ℕ)
  | commit (hash : Bytes) (ifMatch : Option Bytes) (version : Bytes)
  deriving DecidableEq

/-- The reply of a call. -/
inductive Reply where
  | ok
  | pinned (version : Bytes) (info : Meta)
  | error (reason : Reason)
  deriving DecidableEq

/-! ### Reading and writing the pointer of a key -/

/-- `valid_pointer?`. -/
def validPointer (value : Bytes) : Bool :=
  value.length == 64 && value.all fun byte ↦ (0x30 ≤ byte && byte ≤ 0x39) || (0x61 ≤ byte && byte ≤ 0x66)

/-- What `read_meta` and `decode_meta` check of a term. -/
def Meta.valid (info : Meta) : Bool := info.termSize ≤ 65536 && info.etag != []

/-- `read_meta`. -/
def readMeta (objects : Objects) (hash version : Bytes) : Except Reason Meta :=
  match ((objects hash).versions version).bind VersionDir.metaFile with
  | some info => if info.valid then .ok info else .error (.adapter .corruptMeta)
  | none => .error (.adapter .corruptMeta)

/-- `read_current`. -/
def readCurrent (objects : Objects) (hash : Bytes) : Except Reason (Bytes × Meta) :=
  match (objects hash).current with
  | some version =>
    if validPointer version then (readMeta objects hash version).map (version, ·)
    else .error (.adapter .corruptMeta)
  | none => .error .notFound

/-- `current_for_commit`; `none` is `:missing`. -/
def currentForCommit (objects : Objects) (hash : Bytes) : Except Reason (Option (Bytes × Meta)) :=
  match readCurrent objects hash with
  | .ok current => .ok (some current)
  | .error .notFound => .ok none
  | .error reason => .error reason

/-- `check_precondition`; an `if_match` of `none` is `:none`. -/
def checkPrecondition (current : Option (Bytes × Meta)) (ifMatch : Option Bytes) : Except Reason Unit :=
  match current, ifMatch with
  | none, none => .ok ()
  | some (_, info), some etag => if info.etag = etag then .ok () else .error .preconditionFailed
  | _, _ => .error .preconditionFailed

/-- `validate_hash_and_version`. -/
def validateHashAndVersion (hash version : Bytes) : Except Reason Unit :=
  if validPointer hash && validPointer version then .ok () else .error (.adapter .badReturn)

/-- `commit`. -/
def commit (objects : Objects) (hash : Bytes) (ifMatch : Option Bytes) (version : Bytes) :
    Except Reason Objects := do
  validateHashAndVersion hash version
  let _ ← readMeta objects hash version
  let current ← currentForCommit objects hash
  checkPrecondition current ifMatch
  return Function.update objects hash { objects hash with current := some version }

/-! ### Pins and holds -/

/-- The processes that pin a version, each with its count. -/
abbrev Holders := AList fun _ : ℕ ↦ ℕ

/-- The state of the server. A hold names its process and the version that it claims. -/
structure Server where
  pins : AList (fun _ : Bytes ↦ Holders) := ∅
  holds : AList (fun _ : ℕ ↦ ℕ × Option Bytes) := ∅
  monitors : AList (fun _ : ℕ ↦ ℕ) := ∅

namespace Server

/-- `holder_active?`. -/
def holderActive (s : Server) (holder : ℕ) : Bool :=
  (s.pins.entries.any fun e ↦ e.2.keys.contains holder) || s.holds.entries.any fun e ↦ e.2.1 == holder

/-- `monitor_holder`; `monitor` is what `Process.monitor` would return. -/
def monitorHolder (s : Server) (holder monitor : ℕ) : Server :=
  if (s.monitors.lookup holder).isSome then s
  else { s with monitors := s.monitors.insert holder monitor }

/-- `demonitor_inactive_holder`. -/
def demonitorInactiveHolder (s : Server) (holder : ℕ) : Server :=
  if s.holderActive holder then s else { s with monitors := s.monitors.erase holder }

/-- `add_pin`. -/
def addPin (s : Server) (version : Bytes) (holder monitor : ℕ) : Server :=
  let holders := (s.pins.lookup version).getD ∅
  let holders := holders.insert holder (((holders.lookup holder).map (· + 1)).getD 1)
  { s with pins := s.pins.insert version holders }.monitorHolder holder monitor

/-- The pins that `remove_pin` leaves. -/
def pinsWithout (s : Server) (version : Bytes) (holder : ℕ) : AList fun _ : Bytes ↦ Holders :=
  match s.pins.lookup version with
  | some holders =>
    match holders.lookup holder with
    | some count =>
      let holders := if count = 1 then holders.erase holder else holders.insert holder (count - 1)
      if holders.entries.isEmpty then s.pins.erase version else s.pins.insert version holders
    | none => s.pins
  | none => s.pins

/-- `remove_pin`. -/
def removePin (s : Server) (version : Bytes) (holder : ℕ) : Server :=
  { s with pins := s.pinsWithout version holder }.demonitorInactiveHolder holder

/-- `add_hold`. -/
def addHold (s : Server) (ref holder monitor : ℕ) : Server :=
  { s with holds := s.holds.insert ref (holder, none) }.monitorHolder holder monitor

/-- `remove_hold`. -/
def removeHold (s : Server) (ref holder : ℕ) : Server :=
  let s :=
    match s.holds.lookup ref with
    | some hold => if hold.1 = holder then { s with holds := s.holds.erase ref } else s
    | none => s
  s.demonitorInactiveHolder holder

/-- The call `claim`. -/
def claim (s : Server) (ref : ℕ) (version : Bytes) (holder : ℕ) : Reply × Server :=
  if validPointer version then
    match s.holds.lookup ref with
    | some (owner, none) =>
      if owner = holder then (.ok, { s with holds := s.holds.insert ref (holder, some version) })
      else (.error (.adapter .badReturn), s)
    | some (owner, some claimed) =>
      if owner = holder ∧ claimed = version then (.ok, s) else (.error (.adapter .badReturn), s)
    | none => (.error (.adapter .badReturn), s)
  else (.error (.adapter .badReturn), s)

/-- `handle_call` for a call of `holder`. -/
def handleCall (s : Server) (objects : Objects) (holder monitor : ℕ) :
    Request → Reply × Server × Objects
  | .pin hash =>
    if validPointer hash then
      match readCurrent objects hash with
      | .ok (version, info) => (.pinned version info, s.addPin version holder monitor, objects)
      | .error reason => (.error reason, s, objects)
    else (.error (.adapter .badReturn), s, objects)
  | .unpin version => (.ok, s.removePin version holder, objects)
  | .hold ref =>
    if (s.holds.lookup ref).isSome then (.error (.adapter .badReturn), s, objects)
    else (.ok, s.addHold ref holder monitor, objects)
  | .claim ref version =>
    let (reply, s) := s.claim ref version holder
    (reply, s, objects)
  | .release ref => (.ok, s.removeHold ref holder, objects)
  | .commit hash ifMatch version =>
    match commit objects hash ifMatch version with
    | .ok objects => (.ok, s, objects)
    | .error reason => (.error reason, s, objects)

/-- The calls that read or write files, and so may fail for another reason. -/
def fallible : Request → Bool
  | .pin _ | .commit _ _ _ => true
  | _ => false

/-- The answer to a call, unless a file operation of it fails. -/
def answer (s : Server) (objects : Objects) (holder monitor : ℕ) (request : Request)
    (fault : Option AdapterReason) : Reply × Server × Objects :=
  match fault with
  | some reason =>
    if fallible request then (.error (.adapter reason), s, objects)
    else s.handleCall objects holder monitor request
  | none => s.handleCall objects holder monitor request

/-- The message `:DOWN`. -/
def handleDown (s : Server) (monitor holder : ℕ) : Server :=
  if s.monitors.lookup holder = some monitor then
    { pins := s.pins.entries.foldl (fun pins e ↦
        let holders := e.2.erase holder
        if holders.entries.isEmpty then pins else pins.insert e.1 holders) ∅
      holds := ⟨s.holds.entries.filter fun e ↦ e.2.1 != holder,
        s.holds.nodupKeys.sublist List.filter_sublist⟩
      monitors := s.monitors.erase holder }
  else s

/-- The message `:timeout` stops the server. -/
def idle (s : Server) : Bool := s.pins.entries.isEmpty && s.holds.entries.isEmpty

/-! ### Sweeps -/

/-- `version_claimed?`. -/
def versionClaimed (s : Server) (version : Bytes) : Bool :=
  s.holds.entries.any fun e ↦ e.2.2 == some version

/-- The versions that `sweep_entry` may remove while `current` is the current one. -/
def sweepable (s : Server) (current : Option Bytes) (version : Bytes) : Bool :=
  validPointer version && current != some version && !(s.pins.lookup version).isSome &&
    !s.versionClaimed version

/-- `sweep_hash`. Of each version that it may remove, `removal` tells what it removes: nothing of one
that is younger than an hour. -/
def sweepHash (s : Server) (removal : Bytes → Removal) (dir : ObjectDir) : ObjectDir :=
  if dir.current.all validPointer then
    { dir with
      versions := fun version ↦
        if s.sweepable dir.current version then (dir.versions version).bind (removal version).leaves
        else dir.versions version }
  else dir

end Server

end Gitility.LocalStore
