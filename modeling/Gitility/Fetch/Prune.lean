import Gitility.Refs.Listing

/-!
# Pruning after a fetch

`prune`, `prune_refspecs` and `prune_candidates` of `crates/gitility-core/src/fetch.rs`. `gix-refspec` and
`gix-ref` are not part of the repository: reverse matching, the names a reference may have and the reference
transaction are the fields of `Gix`.
-/

namespace Gitility.Prune

/-- The two sides of a `gix_refspec::RefSpec`, as written. -/
structure RefSpec where
  source : Option Bytes
  destination : Option Bytes
  deriving DecidableEq, Repr

/-- `gix_refspec::match_group::Item`; its peeled `object` is always `None` here. -/
structure Item where
  fullRefName : Bytes
  target : Bytes
  deriving DecidableEq, Repr

/-- `gix_refspec::match_group::SourceRef`. -/
inductive SourceRef where
  | fullName (name : Bytes)
  | objectId (oid : Bytes)
  deriving DecidableEq, Repr

/-- `gix_refspec::match_group::Mapping`, its indices apart. -/
structure Mapping where
  lhs : SourceRef
  rhs : Option Bytes
  deriving DecidableEq, Repr

/-- `fetch.rs` `LocalPruneRef`. -/
structure LocalPruneRef where
  name : Bytes
  target : Bytes
  deriving DecidableEq, Repr

/-- A `RefEdit` that deletes `name`, reflog included, if it still is the direct reference `expected`. -/
structure RefEdit where
  name : Bytes
  expected : Bytes
  deriving DecidableEq, Repr

/-- What `prune` uses of `gix-refspec` and `gix-ref`: `MatchGroup::match_rhs`, the full local name that stands
for a destination without a pattern, `FullName::try_from` and `BStr::to_str_lossy`. -/
structure Gix where
  matchRhs : List RefSpec → List Item → List Mapping
  localName : Bytes → Bytes
  fullName : Bytes → Bool
  lossy : Bytes → Bytes

/-- `fetch.rs` `contains_glob`. -/
def containsGlob (value : Bytes) : Bool :=
  value.any fun byte ↦ (Bytes.ascii "*?[]\\").contains byte

/-- The loop body of `prune_refspecs`. -/
def pruneRefspecsStep (found : List RefSpec × Std.TreeSet Bytes) (spec : RefSpec) :
    List RefSpec × Std.TreeSet Bytes :=
  match spec.source, spec.destination with
  | some source, some destination =>
    if containsGlob source then (found.1 ++ [spec], found.2)
    else (found.1, found.2.insert destination)
  | _, _ => found

/-- `fetch.rs` `prune_refspecs`: the wildcard specs, and the destinations of the exact ones. -/
def pruneRefspecs (refspecs : List RefSpec) : List RefSpec × Std.TreeSet Bytes :=
  refspecs.foldl pruneRefspecsStep ([], ∅)

/-- The loop body of `prune_candidates`. -/
def pruneCandidatesStep (protectedExact : Std.TreeSet Bytes) (byName : Std.TreeMap Bytes Bytes)
    (advertised : Std.TreeSet Bytes) (mapped : Std.TreeMap Bytes (Bytes × Bool)) (mapping : Mapping) :
    Std.TreeMap Bytes (Bytes × Bool) :=
  match mapping.lhs, mapping.rhs with
  | .fullName remote, some name =>
    if protectedExact.contains name then mapped
    else match byName[name]? with
      | none => mapped
      | some target =>
        let remotePresent := advertised.contains remote
        let entry := mapped[name]?.getD (target, false)
        mapped.insert name (entry.1, entry.2 || remotePresent)
  | _, _ => mapped

/-- `fetch.rs` `prune_candidates`. -/
def pruneCandidates (gix : Gix) (wildcardSpecs : List RefSpec) (protectedExact : Std.TreeSet Bytes)
    (locals : List LocalPruneRef) (advertised : Std.TreeSet Bytes) : List (Bytes × Bytes) :=
  let items := locals.map fun entry ↦ ⟨entry.name, entry.target⟩
  let reverse := gix.matchRhs wildcardSpecs items
  let byName : Std.TreeMap Bytes Bytes := .ofList (locals.map fun entry ↦ (entry.name, entry.target))
  let mapped := reverse.foldl (pruneCandidatesStep protectedExact byName advertised) ∅
  mapped.toList.filterMap fun entry ↦ if entry.2.2 then none else some (entry.1, entry.2.1)

/-- The loop of `prune` over `references.all()`: symbolic references are left out. -/
def directRefs : List (Except Unit GixReference) → Except Unit (List LocalPruneRef)
  | [] => .ok []
  | .error () :: _ => .error ()
  | .ok reference :: rest => do
    let locals ← directRefs rest
    match reference.target with
    | .object oid => return ⟨reference.name, oid⟩ :: locals
    | .symbolic _ => return locals

/-- The loop of `prune` that turns candidates into edits and names. -/
def pruneEdits (gix : Gix) : List (Bytes × Bytes) → Except Unit (List RefEdit × List Bytes)
  | [] => .ok ([], [])
  | (name, target) :: rest =>
    if gix.fullName name then do
      let (edits, names) ← pruneEdits gix rest
      return (⟨name, target⟩ :: edits, gix.lossy name :: names)
    else .error ()

/-- `fetch.rs` `prune`, up to the transaction: the edits it asks for and the names it reports. `references` is
what iterating over all references yields, `refspecs` and `remoteRefs` are those of the `RefMap`. -/
def prune (gix : Gix) (references : Except Unit (List (Except Unit GixReference))) (refspecs : List RefSpec)
    (remoteRefs : List Bytes) : Except Unit (List RefEdit × List Bytes) :=
  let (wildcards, protectedExact) := pruneRefspecs refspecs
  if wildcards.isEmpty then .ok ([], [])
  else do
    let locals ← directRefs (← references)
    let advertised := Std.TreeSet.ofList remoteRefs
    let candidates := pruneCandidates gix wildcards protectedExact locals advertised
    if candidates.isEmpty then .ok ([], []) else pruneEdits gix candidates

end Gitility.Prune
