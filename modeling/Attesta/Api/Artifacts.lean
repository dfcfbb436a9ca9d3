import Attesta.Api.Error
import Attesta.Core.Hex
import Attesta.Foundation.LexicalPath

/-! The paths under which prover artifacts are read. The layout on disk is
`ARTIFACTS_DIR/circuit/version/file`, but a segment that is a single dot passes the check and
is no directory of its own.
-/

namespace Attesta.Api.Artifacts

open LexicalPath

/-- The test of `artifact_path` on a segment. -/
def segmentOk (segment : String) : Bool :=
  !segment.isEmpty
    && decide (segment.utf8ByteSize ≤ 128)
    && segment.toList.all (fun c => c.isAlphanum || c == '-' || c == '_' || c == '.')
    && !decide (['.', '.'] <:+: segment.toList)

/-- `artifact_path`. -/
def artifactPath (artifactsDir circuit version file : String) : Except ApiError (List Char) :=
  if [circuit, version, file].all segmentOk then
    .ok (push (push (push artifactsDir.toList circuit.toList) version.toList) file.toList)
  else .error (.badRequest "invalid artifact path segment")

structure ArtifactResponse where
  contentType : String
  /-- The `x-artifact-sha256` header. -/
  sha256 : String
  cacheControl : String
  body : List UInt8

/-- `get_file`, on a file system without links: what can be read under a resolved path. -/
def getFile (files : Resolved → Option (List UInt8)) (sha256 : List UInt8 → List UInt8)
    (artifactsDir circuit version file : String)
    : Except ApiError ArtifactResponse := do
  let path ← artifactPath artifactsDir circuit version file
  match files (resolve path) with
  | none => .error (.notFound "unknown artifact")
  | some bytes =>
      .ok ⟨"application/octet-stream", String.ofList (Hex.encode (sha256 bytes)),
        "public, max-age=31536000, immutable", bytes⟩

-----------------------------------------------------------------------------------------
-- What an accepted path resolves to
-----------------------------------------------------------------------------------------

variable {artifactsDir circuit version file : String} {path : List Char}

theorem segmentOk_plain {segment : String} (h : segmentOk segment = true)
    : Plain segment.toList := by
  simp only [segmentOk, Bool.and_eq_true, Bool.not_eq_true', decide_eq_true_eq,
    decide_eq_false_iff_not, List.all_eq_true] at h
  obtain ⟨⟨⟨nonempty, _⟩, letters⟩, forward⟩ := h
  refine ⟨?_, fun slash => ?_, fun back => forward (back ▸ List.infix_rfl)⟩
  · simpa using nonempty
  · exact absurd (letters '/' slash) (by decide)

theorem artifactPath_eq_ok_iff
    : artifactPath artifactsDir circuit version file = .ok path
      ↔ (segmentOk circuit = true ∧ segmentOk version = true ∧ segmentOk file = true)
        ∧ push (push (push artifactsDir.toList circuit.toList) version.toList) file.toList
          = path := by
  have all
      : [circuit, version, file].all segmentOk = true
        ↔ segmentOk circuit = true ∧ segmentOk version = true ∧ segmentOk file = true := by
    simp
  rw [artifactPath, ← all]
  split
  next ok => simp [ok]
  next refused => simp [refused]

/-- The segments of a triple that name something. -/
def named (circuit version file : String) : List (List Char) :=
  ([circuit, version, file].filter (fun segment => segment ≠ ".")).map String.toList

theorem toList_eq_dot {segment : String} : segment.toList = ['.'] ↔ segment = "." := by
  rw [← String.toList_inj]
  rfl

/-- Whatever is accepted, the path stays below the directory, and only dots are left out. -/
theorem resolve_artifactPath (h : artifactPath artifactsDir circuit version file = .ok path)
    : resolve path = (resolve artifactsDir.toList).below (named circuit version file) := by
  obtain ⟨⟨first, second, third⟩, rfl⟩ := artifactPath_eq_ok_iff.mp h
  rw [resolve_push (segmentOk_plain third), resolve_push (segmentOk_plain second),
    resolve_push (segmentOk_plain first)]
  simp only [toList_eq_dot, Resolved.below_below, named, List.filter_cons, List.filter_nil]
  split <;> split <;> split <;> simp_all

/-- Only a triple without a dot comes to three names. -/
theorem length_named_iff
    : (named circuit version file).length = 3
      ↔ circuit ≠ "." ∧ version ≠ "." ∧ file ≠ "." := by
  rw [named, List.length_map]
  constructor
  · intro whole
    have kept : ([circuit, version, file].filter (fun segment => segment ≠ ".")).length
        = [circuit, version, file].length :=
      whole
    simpa using List.length_filter_eq_length_iff.mp kept
  · rintro ⟨first, second, third⟩
    simp [first, second, third]

theorem named_of_length (whole : (named circuit version file).length = 3)
    : named circuit version file = [circuit.toList, version.toList, file.toList] := by
  obtain ⟨first, second, third⟩ := length_named_iff.mp whole
  simp [named, first, second, third]

/-- What is served was read below the directory, under the segments that are not dots. -/
theorem getFile_below {files : Resolved → Option (List UInt8)}
    {sha256 : List UInt8 → List UInt8} {response : ArtifactResponse}
    (h : getFile files sha256 artifactsDir circuit version file = .ok response)
    : files ((resolve artifactsDir.toList).below (named circuit version file))
        = some response.body
      ∧ response.sha256 = String.ofList (Hex.encode (sha256 response.body)) := by
  cases accepted : artifactPath artifactsDir circuit version file with
  | error e => simp [getFile, accepted, bind, Except.bind] at h
  | ok path =>
      simp only [getFile, accepted, bind, Except.bind, resolve_artifactPath accepted] at h
      split at h
      next => cases h
      next bytes found =>
        obtain rfl := Except.ok.inj h
        exact ⟨found, rfl⟩

/-- An accepted triple names a file of its own in the documented layout. -/
structure NamesOneFile (artifactsDir circuit version file : String) (path : List Char) : Prop where
  layout
    : resolve path
      = (resolve artifactsDir.toList).below [circuit.toList, version.toList, file.toList]
  inside : (resolve path).StrictlyInside (resolve artifactsDir.toList)
  own
    : ∀ circuit' version' file' path',
        artifactPath artifactsDir circuit' version' file' = .ok path'
        → resolve path' = resolve path
        → circuit' = circuit ∧ version' = version ∧ file' = file

/-- An accepted triple names a file of its own exactly if none of its segments is a dot. -/
theorem names_one_file_iff (h : artifactPath artifactsDir circuit version file = .ok path)
    : NamesOneFile artifactsDir circuit version file path
      ↔ circuit ≠ "." ∧ version ≠ "." ∧ file ≠ "." := by
  rw [← length_named_iff]
  constructor
  · intro claim
    have names := (resolve artifactsDir.toList).below_injective
      ((resolve_artifactPath h).symm.trans claim.layout)
    rw [names]
    rfl
  · intro all
    have layout := resolve_artifactPath h
    rw [named_of_length all] at layout
    refine ⟨layout, ?_, ?_⟩
    · rw [layout, Resolved.below_strictlyInside]
      exact List.cons_ne_nil _ _
    · intro circuit' version' file' path' accepted same
      rw [resolve_artifactPath accepted, layout] at same
      have names := (resolve artifactsDir.toList).below_injective same
      -- A triple with a dot would come to fewer names.
      have whole : (named circuit' version' file').length = 3 := congrArg List.length names
      rw [named_of_length whole] at names
      simpa [String.toList_inj] using names

theorem names_one_file_iff_transfer
    : ∃ path,
        artifactPath "./artifacts" "transfer" "v1.2" "proving-key.bin" = .ok path
        ∧ NamesOneFile "./artifacts" "transfer" "v1.2" "proving-key.bin" path := by
  have accepted : artifactPath "./artifacts" "transfer" "v1.2" "proving-key.bin"
      = .ok "./artifacts/transfer/v1.2/proving-key.bin".toList := by
    decide +kernel
  exact ⟨_, accepted, (names_one_file_iff accepted).mpr (by decide)⟩

/-- Two triples name one file, which is not in a version's directory, and a third triple names
the directory of all artifacts.
-/
theorem dot_segments_accepted
    : ∃ first second third,
        artifactPath "./artifacts" "." "transfer" "manifest.json" = .ok first
        ∧ artifactPath "./artifacts" "transfer" "." "manifest.json" = .ok second
        ∧ artifactPath "./artifacts" "." "." "." = .ok third
        ∧ resolve first
          = (resolve "./artifacts".toList).below ["transfer".toList, "manifest.json".toList]
        ∧ resolve second = resolve first
        ∧ resolve third = resolve "./artifacts".toList
        ∧ ¬ NamesOneFile "./artifacts" "." "transfer" "manifest.json" first := by
  refine ⟨"./artifacts/./transfer/manifest.json".toList,
    "./artifacts/transfer/./manifest.json".toList, "./artifacts/././.".toList,
    by decide +kernel, by decide +kernel, by decide +kernel, by decide +kernel,
    by decide +kernel, by decide +kernel, fun claim => ?_⟩
  exact absurd claim.layout (by decide +kernel)

end Attesta.Api.Artifacts
