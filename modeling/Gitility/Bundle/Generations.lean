import Gitility.Base.Runs
import Gitility.Bundle.Publication

/-!
# Generations of a bundle path

`next_generation` of `lib/gitility/bundle.ex`, and any number of `Bundle.write` calls on one path. A
call inspects the destination, writes its temporary file and renames it over the destination, each in
one step. The destination may be replaced between these steps.
-/

namespace Gitility.Bundle

/-- `@maximum_generation`. -/
def maximumGeneration : ℕ := 18446744073709551615

/-- `classify_destination`: nothing, a bundle, or a refusal. -/
def classifyDestination (sha256 : Bytes → Bytes) : Option Bytes → Except Error (Option Toc)
  | none => .ok none
  | some file =>
    match parse sha256 file with
    | .ok toc => .ok (some toc)
    | .error error =>
      if error.code = .invalidArgument ∨ error.code = .malformedObject then
        .error (.new .invalidArgument "refusing to overwrite an existing non-bundle file")
      else .error error

/-- `next_generation`. -/
def nextGeneration (sha256 : Bytes → Bytes) (destination : Option Bytes) (requested : Option ℕ) :
    Except Error ℕ := do
  match ← classifyDestination sha256 destination with
  | none => return requested.getD 1
  | some toc =>
    match requested with
    | none =>
      if toc.generation = maximumGeneration then
        .error (.new .unsupportedOperation "bundle generation space exhausted")
      else return toc.generation + 1
    | some generation =>
      if toc.generation < generation then return generation
      else
        .error (.new .invalidArgument
          ":generation must be greater than the existing bundle generation")

/-- The arguments of one call. The writer's input is what the call will collect; its generation is
set by the call. -/
structure WriteRequest where
  requested : Option ℕ
  input : Writer.Input
  requested_mem : ∀ generation ∈ requested, 1 ≤ generation ∧ generation ≤ maximumGeneration

/-- How far a call is. `found` is the destination that it inspected, which the code does not keep. -/
inductive WritePhase where
  | started
  | inspected (found : Option Bytes) (generation : ℕ)
  | staged (found : Option Bytes) (generation : ℕ) (receipt : Writer.Receipt) (temp : Bytes)
  | published (receipt : Writer.Receipt)
  | failed

/-- One call. -/
structure WriteCall where
  request : WriteRequest
  phase : WritePhase

/-- The destination path and the calls on it. -/
structure BundlePath where
  destination : Option Bytes
  calls : List WriteCall

/-- The steps of the calls. -/
inductive WriteMove where
  | start (request : WriteRequest)
  | inspect (call : ℕ)
  | stage (call : ℕ)
  | rename (call : ℕ)
  | abort (call : ℕ)

namespace BundlePath

variable (sha256 : Bytes → Bytes)

/-- A call reaches a phase. -/
def advance (s : BundlePath) (call : ℕ) (phase : WritePhase) : BundlePath :=
  { s with calls := s.calls.modify call fun c ↦ { c with phase } }

/-- One step. -/
def step (s : BundlePath) : WriteMove → Option BundlePath
  | .start request => some { s with calls := s.calls ++ [⟨request, .started⟩] }
  | .inspect i =>
    match s.calls[i]? with
    | some ⟨request, .started⟩ =>
      match nextGeneration sha256 s.destination request.requested with
      | .ok generation => some (s.advance i (.inspected s.destination generation))
      | .error _ => some (s.advance i .failed)
    | _ => none
  | .stage i =>
    match s.calls[i]? with
    | some ⟨request, .inspected found generation⟩ =>
      match Writer.write sha256 { request.input with generation } with
      | .ok (receipt, temp) => some (s.advance i (.staged found generation receipt temp))
      | .error _ => some (s.advance i .failed)
    | _ => none
  | .rename i =>
    match s.calls[i]? with
    | some ⟨_, .staged _ _ receipt temp⟩ =>
      some { s.advance i (.published receipt) with destination := some temp }
    | _ => none
  | .abort i =>
    match s.calls[i]? with
    | some ⟨_, .published _⟩ => none
    | some _ => some (s.advance i .failed)
    | none => none

/-- A rename that replaces a bundle publishes a greater generation, and every reader of the new file
finds that generation. -/
def Increases (s : BundlePath) (move : WriteMove) : Prop :=
  ∀ i request found generation receipt temp, move = .rename i →
    s.calls[i]? = some ⟨request, .staged found generation receipt temp⟩ →
    (∀ toc, parse sha256 temp = .ok toc → toc.generation = generation) ∧
      ∀ file toc, s.destination = some file → parse sha256 file = .ok toc → toc.generation < generation

/-- A rename finds the destination that its call inspected, or the call asked for a generation greater
than that of the bundle it finds. -/
def Undisturbed (s : BundlePath) (move : WriteMove) : Prop :=
  ∀ i request found generation receipt temp, move = .rename i →
    s.calls[i]? = some ⟨request, .staged found generation receipt temp⟩ →
    s.destination = found ∨ ∃ requested, request.requested = some requested ∧
      ∀ file toc, s.destination = some file → parse sha256 file = .ok toc → toc.generation < requested

variable {sha256 : Bytes → Bytes}

/-! ### The generation of a file -/

/-- A trailer determines its offset and length. -/
theorem encodeTrailer_inj {a b a' b' : ℕ} {digest digest' : Bytes} (ha : a < 2 ^ 64) (hb : b < 2 ^ 64)
    (ha' : a' < 2 ^ 64) (hb' : b' < 2 ^ 64)
    (h : encodeTrailer a b digest = encodeTrailer a' b' digest') : a = a' ∧ b = b' := by
  simp only [encodeTrailer, List.append_assoc] at h
  obtain ⟨hfirst, h⟩ := List.append_inj h (by simp)
  obtain ⟨hsecond, -⟩ := List.append_inj h (by simp)
  constructor
  · rw [← Bytes.ofLe_toLe_of_lt (n := 8) ha, hfirst, Bytes.ofLe_toLe_of_lt (n := 8) ha']
  · rw [← Bytes.ofLe_toLe_of_lt (n := 8) hb, hsecond, Bytes.ofLe_toLe_of_lt (n := 8) hb']

/-- Every reader of a published file finds the table of contents that was written. -/
theorem toc_of_parse (hsha : ∀ bytes, (sha256 bytes).length = 32) {input : Writer.Input}
    {receipt : Writer.Receipt} {file : Bytes} {toc : Toc}
    (hwrite : Writer.write sha256 input = .ok (receipt, file)) (hparse : parse sha256 file = .ok toc) :
    ∃ c : Contents, c.Valid ∧ toc = c.parsed sha256 ∧ c.toc = (input.contents sha256).toc := by
  obtain ⟨hfile, hceiling, hsize, -⟩ := Writer.write_eq_ok hwrite
  obtain ⟨c, ⟨hvalid, -, hfile'⟩, rfl⟩ := parse_eq_ok.mp hparse
  obtain ⟨hlength, -, htoc, htrailer⟩ := (input.contents sha256).file_parts (hsha _)
  obtain ⟨hlength', -, htoc', htrailer'⟩ := c.file_parts (hsha _)
  rw [← hfile] at hlength htoc htrailer
  rw [← hfile'] at hlength' htoc' htrailer'
  have hstart : c.tocOffset + c.toc.length =
      (input.contents sha256).tocOffset + (input.contents sha256).toc.length := by omega
  rw [hstart, htrailer] at htrailer'
  have hlen := hvalid.tocLen.trans_lt (show maxTocLen < 2 ^ 64 by decide)
  have hlen' := hceiling.trans_lt (show maxTocLen < 2 ^ 64 by decide)
  obtain ⟨hoffset, hlast⟩ := encodeTrailer_inj (by omega) hlen' hvalid.tocOffset hlen htrailer'
  exact ⟨c, hvalid, rfl, by rw [← htoc, ← htoc', hoffset, hlast]⟩

/-- Every reader of a published file finds the generation field that was written. -/
theorem toLe_generation_of_parse (hsha : ∀ bytes, (sha256 bytes).length = 32) {input : Writer.Input}
    {receipt : Writer.Receipt} {file : Bytes} {toc : Toc}
    (hwrite : Writer.write sha256 input = .ok (receipt, file)) (hparse : parse sha256 file = .ok toc) :
    Bytes.toLe 8 toc.generation = Bytes.toLe 8 input.generation := by
  obtain ⟨c, -, rfl, heq⟩ := toc_of_parse hsha hwrite hparse
  -- The generation stands after the byte of the hash algorithm.
  have hbytes := congrArg (fun bytes : Bytes ↦ (bytes.drop 1).take 8) heq
  have hread (content : Contents) : (content.toc.drop 1).take 8 = Bytes.toLe 8 content.generation := by
    refine slice_eq content.toc [encodeHash content.hashAlgorithm] (Bytes.toLe 8 content.generation)
      (Bytes.toLe 4 content.metadata.length ++ content.metadata.flatMap encodeMetadata ++
        Bytes.toLe 4 content.files.length ++ content.files.flatMap encodeFile ++
        Bytes.toLe 4 content.refs.length ++ content.refs.flatMap encodeRef ++ content.tail) ?_ rfl
      (by simp)
    simp [Contents.toc, encodeSorted]
  rw [hread, hread] at hbytes
  exact hbytes

/-- The generation of a bundle fits its field. -/
theorem generation_bounds {file : Bytes} {toc : Toc} (h : parse sha256 file = .ok toc) :
    1 ≤ toc.generation ∧ toc.generation ≤ maximumGeneration := by
  obtain ⟨c, ⟨hvalid, -, -⟩, rfl⟩ := parse_eq_ok.mp h
  obtain ⟨hmin, hmax⟩ := hvalid.content.generation
  exact ⟨hmin, Nat.le_of_lt_succ hmax⟩

/-- Every reader of a published file finds the generation that was written. -/
theorem generation_of_parse (hsha : ∀ bytes, (sha256 bytes).length = 32) {input : Writer.Input}
    {receipt : Writer.Receipt} {file : Bytes} {toc : Toc}
    (hgeneration : input.generation ≤ maximumGeneration)
    (hwrite : Writer.write sha256 input = .ok (receipt, file))
    (hparse : parse sha256 file = .ok toc) : toc.generation = input.generation := by
  have hbytes := toLe_generation_of_parse hsha hwrite hparse
  have hfound : toc.generation < 256 ^ 8 := lt_of_le_of_lt (generation_bounds hparse).2 (by decide)
  have hgen : input.generation < 256 ^ 8 := lt_of_le_of_lt hgeneration (by decide)
  calc toc.generation = Bytes.ofLe (Bytes.toLe 8 toc.generation) := (Bytes.ofLe_toLe_of_lt hfound).symm
    _ = Bytes.ofLe (Bytes.toLe 8 input.generation) := by rw [hbytes]
    _ = input.generation := Bytes.ofLe_toLe_of_lt hgen

/-- A destination is missing, or is a bundle that can be read. -/
theorem classifyDestination_eq_ok {destination : Option Bytes} {found : Option Toc}
    (h : classifyDestination sha256 destination = .ok found) :
    destination = none ∧ found = none ∨
      ∃ file toc, destination = some file ∧ parse sha256 file = .ok toc ∧ found = some toc := by
  cases destination with
  | none =>
    cases h
    exact .inl ⟨rfl, rfl⟩
  | some file =>
    simp only [classifyDestination] at h
    split at h
    · next toc hparse =>
      cases h
      exact .inr ⟨file, toc, rfl, hparse, rfl⟩
    · split at h <;> cases h

/-- The chosen generation exceeds that of the inspected bundle, and is the requested one if there is
one. -/
theorem nextGeneration_eq_ok {destination : Option Bytes} {requested : Option ℕ} {generation : ℕ}
    (h : nextGeneration sha256 destination requested = .ok generation) :
    (∀ file toc, destination = some file → parse sha256 file = .ok toc →
        toc.generation < generation) ∧
      (∀ r, requested = some r → generation = r) ∧
      ((∀ r ∈ requested, r ≤ maximumGeneration) → generation ≤ maximumGeneration) := by
  simp only [nextGeneration, Except.bind_eq_ok] at h
  obtain ⟨found, hfound, h⟩ := h
  rcases classifyDestination_eq_ok hfound with ⟨rfl, rfl⟩ | ⟨file, toc, rfl, hparse, rfl⟩
  · cases h
    refine ⟨by simp, ?_, fun hbound ↦ ?_⟩
    · rintro r rfl
      rfl
    · cases requested with
      | none => decide
      | some r => exact hbound r rfl
  · have hunique {file' : Bytes} {toc' : Toc} (hfile : some file = some file')
        (hparse' : parse sha256 file' = .ok toc') : toc' = toc := by
      cases hfile
      rw [hparse] at hparse'
      exact (Except.ok.inj hparse').symm
    cases requested with
    | none =>
      dsimp only at h
      split at h
      · cases h
      · next hmax =>
        cases h
        refine ⟨fun file' toc' hfile hparse' ↦ ?_, by simp, fun _ ↦ ?_⟩
        · rw [hunique hfile hparse']
          exact Nat.lt_succ_self _
        · have hbound := (generation_bounds hparse).2
          omega
    | some r =>
      dsimp only at h
      split at h
      · next hlt =>
        cases h
        refine ⟨fun file' toc' hfile hparse' ↦ ?_, ?_, fun hbound ↦ hbound _ rfl⟩
        · rw [hunique hfile hparse']
          exact hlt
        · rintro _ ⟨⟩
          rfl
      · cases h

/-! ### Runs -/

variable (sha256) in
/-- What a call knows. -/
def CallInv (call : WriteCall) : Prop :=
  match call.phase with
  | .inspected found generation =>
    nextGeneration sha256 found call.request.requested = .ok generation
  | .staged found generation receipt temp =>
    nextGeneration sha256 found call.request.requested = .ok generation ∧
      Writer.write sha256 { call.request.input with generation } = .ok (receipt, temp)
  | _ => True

private theorem forall_mem_advance {s : BundlePath} {i : ℕ} {request : WriteRequest}
    {phase phase' : WritePhase} (h : ∀ call ∈ s.calls, CallInv sha256 call)
    (hcall : s.calls[i]? = some ⟨request, phase⟩) (hphase : CallInv sha256 ⟨request, phase'⟩) :
    ∀ call ∈ (s.advance i phase').calls, CallInv sha256 call := by
  intro call hmem
  obtain ⟨j, hj⟩ := List.mem_iff_getElem?.mp hmem
  rw [advance, List.getElem?_modify] at hj
  by_cases hij : i = j
  · subst hij
    rw [hcall] at hj
    obtain rfl := Option.some.inj hj
    simpa using hphase
  · simp only [hij, if_false] at hj
    exact h call (List.mem_iff_getElem?.mpr ⟨j, by simpa using hj⟩)

private theorem callInv_step {s s' : BundlePath} {move : WriteMove} (h : ∀ call ∈ s.calls, CallInv sha256 call)
    (hstep : s.step sha256 move = some s') : ∀ call ∈ s'.calls, CallInv sha256 call := by
  cases move with
  | start request =>
    cases hstep
    intro call hmem
    rcases List.mem_append.mp hmem with hmem | hmem
    · exact h call hmem
    · obtain rfl := List.mem_singleton.mp hmem
      trivial
  | inspect i =>
    simp only [step] at hstep
    split at hstep
    · next request hcall =>
      split at hstep
      · next generation hnext =>
        cases hstep
        exact forall_mem_advance h hcall hnext
      · cases hstep
        exact forall_mem_advance h hcall trivial
    · cases hstep
  | stage i =>
    simp only [step] at hstep
    split at hstep
    · next request found generation hcall =>
      have hnext := h _ (List.mem_of_getElem? hcall)
      split at hstep
      · next receipt temp hwrite =>
        cases hstep
        exact forall_mem_advance h hcall ⟨hnext, hwrite⟩
      · cases hstep
        exact forall_mem_advance h hcall trivial
    · cases hstep
  | rename i =>
    simp only [step] at hstep
    split at hstep
    · next request found generation receipt temp hcall =>
      cases hstep
      have hdone : CallInv sha256 ⟨request, .published receipt⟩ := trivial
      exact forall_mem_advance h hcall hdone
    · cases hstep
  | abort i =>
    simp only [step] at hstep
    split at hstep
    · cases hstep
    · next call hne hcall =>
      cases hstep
      obtain ⟨request, phase⟩ := call
      have hfailed : CallInv sha256 ⟨request, .failed⟩ := trivial
      exact forall_mem_advance h hcall hfailed
    · cases hstep

/-- A rename that finds what its call inspected, or whose requested generation exceeds what it finds,
increases the generation. -/
theorem increases_of_undisturbed (hsha : ∀ bytes, (sha256 bytes).length = 32) {s : BundlePath}
    {move : WriteMove} (h : ∀ call ∈ s.calls, CallInv sha256 call)
    (hmove : s.Undisturbed sha256 move) : s.Increases sha256 move := by
  intro i request found generation receipt temp heq hcall
  obtain ⟨hnext, hwrite⟩ := h _ (List.mem_of_getElem? hcall)
  obtain ⟨hfound, hrequested, hbound⟩ := nextGeneration_eq_ok hnext
  constructor
  · intro toc hparse
    exact generation_of_parse hsha (hbound fun r hr ↦ (request.requested_mem r hr).2) hwrite hparse
  · intro file toc hfile hparse
    rcases hmove i request found generation receipt temp heq hcall with hsame | ⟨r, hr, hgreater⟩
    · exact hfound file toc (by rw [← hsame, hfile]) hparse
    · rw [hrequested r hr]
      exact hgreater file toc hfile hparse

/-- In every run of calls on one path, a rename that finds the destination that its call inspected, or
whose call asked for a generation greater than the one it finds, increases the generation. -/
theorem run_increases (hsha : ∀ bytes, (sha256 bytes).length = 32) {destination : Option Bytes}
    {steps : List (BundlePath × WriteMove)} {s : BundlePath}
    (hrun : Trace (step sha256) ⟨destination, []⟩ steps s) :
    ∀ x ∈ steps, x.1.Undisturbed sha256 x.2 → x.1.Increases sha256 x.2 := by
  have hresult := hrun.guarded (I := fun s ↦ ∀ call ∈ s.calls, CallInv sha256 call)
    (P := fun _ _ ↦ True)
    (Q := fun s move ↦ s.Undisturbed sha256 move → s.Increases sha256 move)
    (by simp) (fun hinv _ hstep ↦ callInv_step hinv hstep)
    (fun hinv _ _ hmove ↦ increases_of_undisturbed hsha hinv hmove) (fun _ _ ↦ trivial)
  exact hresult.2

/-! ### Two publishers -/

/-- A call that leaves its generation to the code. -/
def sampleRequest : WriteRequest where
  requested := none
  input := Writer.sampleInput (Bytes.ascii "refs/heads/main")
  requested_mem := by simp

/-- The bytes that a call publishes, for the generation that it chose. -/
theorem sample_stage {receipt : Writer.Receipt} {file : Bytes} {found : Option Bytes} {generation : ℕ}
    (hwrite : Writer.write (Writer.sampleSha256 Writer.shortDigest)
      { sampleRequest.input with generation } = .ok (receipt, file)) (s : BundlePath) (i : ℕ)
    (hcall : s.calls[i]? = some ⟨sampleRequest, .inspected found generation⟩) :
    s.step (Writer.sampleSha256 Writer.shortDigest) (.stage i) =
      some (s.advance i (.staged found generation receipt file)) := by
  simp only [step, hcall, hwrite]

/-- A call that inspects a path with a bundle chooses the next generation. -/
theorem sample_inspect {file : Bytes} {toc : Toc} (hparse : parse sha256 file = .ok toc)
    (hroom : toc.generation < maximumGeneration) (s : BundlePath) (i : ℕ)
    (hfile : s.destination = some file) (hcall : s.calls[i]? = some ⟨sampleRequest, .started⟩) :
    s.step sha256 (.inspect i) = some (s.advance i (.inspected (some file) (toc.generation + 1))) := by
  have hnext : nextGeneration sha256 (some file) none = .ok (toc.generation + 1) := by
    have hclassify : classifyDestination sha256 (some file) = .ok (some toc) := by
      simp only [classifyDestination, hparse]
    rw [nextGeneration, hclassify]
    exact if_neg (Nat.ne_of_lt hroom)
  have hrequested : sampleRequest.requested = none := rfl
  simp only [step, hcall, hfile, hrequested, hnext]

/-- Two calls one after the other: the rename of the second replaces generation 1 by generation 2. -/
theorem run_increases_sample : ∃ steps s,
    Trace (step (Writer.sampleSha256 Writer.shortDigest)) ⟨none, []⟩ steps s ∧ ∃ x ∈ steps,
      (x.2 = .rename 1 ∧ ∃ file toc receipt temp, x.1.destination = some file ∧
        parse (Writer.sampleSha256 Writer.shortDigest) file = .ok toc ∧ toc.generation = 1 ∧
        x.1.calls[1]? = some ⟨sampleRequest, .staged (some file) 2 receipt temp⟩) ∧
      x.1.Increases (Writer.sampleSha256 Writer.shortDigest) x.2 := by
  obtain ⟨receipt, file, hwrite⟩ := @Writer.sample_write Writer.shortDigest
    (Bytes.ascii "refs/heads/main") 1 rfl (by decide)
  obtain ⟨receipt', file', hwrite'⟩ := @Writer.sample_write Writer.shortDigest
    (Bytes.ascii "refs/heads/main") 2 rfl (by decide)
  obtain ⟨toc, hopens⟩ := Writer.sample_opens hwrite
  have hgeneration : toc.generation = 1 := hopens.generation
  have hinspect := sample_inspect hopens.parsed (by rw [hgeneration]; decide)
    ⟨some file, [⟨sampleRequest, .published receipt⟩, ⟨sampleRequest, .started⟩]⟩ 1 rfl rfl
  rw [hgeneration] at hinspect
  have hstart : Trace (step (Writer.sampleSha256 Writer.shortDigest)) ⟨none, []⟩ [] ⟨none, []⟩ := .nil
  have hfirst := (((hstart.move (.start sampleRequest) rfl).move (.inspect 0) rfl).move (.stage 0)
    (sample_stage hwrite ⟨none, [⟨sampleRequest, .inspected none 1⟩]⟩ 0 rfl)).move (.rename 0) rfl
  have hsecond := ((hfirst.move (.start sampleRequest) rfl).move (.inspect 1) hinspect).move (.stage 1)
    (sample_stage hwrite' ⟨some file, [⟨sampleRequest, .published receipt⟩,
      ⟨sampleRequest, .inspected (some file) 2⟩]⟩ 1 rfl)
  have hrun := hsecond.move (.rename 1) rfl
  have hlast := run_increases (Writer.length_sampleSha256 rfl) hrun _
    (List.mem_append_right _ List.mem_cons_self)
  refine ⟨_, _, hrun, _, List.mem_append_right _ List.mem_cons_self,
    ⟨rfl, file, toc, receipt', file', rfl, hopens.parsed, hgeneration, rfl⟩, hlast ?_⟩
  intro i request found generation receipt temp hmove hcall
  cases hmove
  cases hcall
  exact .inl rfl

/-- Two calls inspect an empty path before either of them renames: the second rename replaces the first
bundle by one of the same generation. -/
theorem equal_generations : ∃ steps s,
    Trace (step (Writer.sampleSha256 Writer.shortDigest)) ⟨none, []⟩ steps s ∧
      ∃ x ∈ steps, ¬ x.1.Increases (Writer.sampleSha256 Writer.shortDigest) x.2 := by
  obtain ⟨receipt, file, hwrite⟩ := @Writer.sample_write Writer.shortDigest
    (Bytes.ascii "refs/heads/main") 1 rfl (by decide)
  obtain ⟨toc, hopens⟩ := Writer.sample_opens hwrite
  have hstart : Trace (step (Writer.sampleSha256 Writer.shortDigest)) ⟨none, []⟩ [] ⟨none, []⟩ := .nil
  have hinspected := (((hstart.move (.start sampleRequest) rfl).move (.start sampleRequest) rfl).move
    (.inspect 0) rfl).move (.inspect 1) rfl
  have hstaged := (hinspected.move (.stage 0) (sample_stage hwrite ⟨none,
    [⟨sampleRequest, .inspected none 1⟩, ⟨sampleRequest, .inspected none 1⟩]⟩ 0 rfl)).move (.stage 1)
    (sample_stage hwrite ⟨none, [⟨sampleRequest, .staged none 1 receipt file⟩,
      ⟨sampleRequest, .inspected none 1⟩]⟩ 1 rfl)
  have hrenamed := (hstaged.move (.rename 0) rfl).move (.rename 1) rfl
  refine ⟨_, _, hrenamed, _, List.mem_append_right _ List.mem_cons_self, fun hincreases ↦ ?_⟩
  obtain ⟨-, hlt⟩ := hincreases 1 sampleRequest none 1 receipt file rfl rfl
  have hless := hlt file toc rfl hopens.parsed
  rw [hopens.generation] at hless
  exact absurd hless (by decide)

end BundlePath

end Gitility.Bundle
