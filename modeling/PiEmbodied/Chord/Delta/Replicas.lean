import PiEmbodied.Chord.Delta.Codec
import PiEmbodied.Chord.Delta.Congruent
import PiEmbodied.Chord.Delta.DiffSound

/-!
# Replicas of a value

A value's revisions are sent over the codec, the first one whole and each later
one as its difference to the one before.
-/

namespace PiEmbodied.Chord.Delta

open Coding

variable {ι : Type} [DecidableEq ι] {heap : ι → Json ι} (numberLength : ℚ → ℕ)

def differences : Revision heap → List (Revision heap) → List (List (Op Unit))
  | _, [] => []
  | before, after :: rest =>
    diffRevisions numberLength before.value after.value :: differences after rest

def published (first : Revision heap) (rest : List (Revision heap)) : List (List (Op Unit)) :=
  [.r first.value.erase] :: differences numberLength first rest

/-- The values that a replica takes, one for each batch. -/
def follow (owned : ℕ → ℕ → Bool) (replica : JsonValue) :
    List (List (Op Unit)) → Except DeltaError (List JsonValue)
  | [] => .ok []
  | batch :: rest => do
    let value ← applyImmutable (owned 0) replica batch
    let later ← follow (fun k => owned (k + 1)) value rest
    .ok (value :: later)

def Shows (value : JsonValue) (revision : Revision heap) : Prop :=
  DeepEqual value revision.value.erase

theorem Sound.reaches {before after replica : JsonValue} {ops : List (Op Unit)}
    (sound : Sound before after ops) (equal : DeepEqual replica before) (owned : ℕ → Bool) :
    ∃ value, applyImmutable owned replica ops = .ok value ∧ DeepEqual value after := by
  obtain ⟨result, applied, isAfter⟩ := sound.applied
  obtain ⟨value, reached, same⟩ := applyOps_agrees ops (deepEqual_symm equal) result applied
  exact ⟨value, applyImmutable_ok.mpr reached, deepEqual_trans (deepEqual_symm same) isAfter⟩

variable {numberLength}

theorem follow_differences {before : Revision heap} {rest : List (Revision heap)}
    {replica : JsonValue} (equal : Shows replica before) (owned : ℕ → ℕ → Bool) :
    ∃ values : List JsonValue,
      follow owned replica (differences numberLength before rest) = .ok values ∧
        List.Forall₂ Shows values rest := by
  induction rest generalizing before replica owned with
  | nil => exact ⟨[], rfl, .nil⟩
  | cons after rest ih =>
    obtain ⟨value, here, next⟩ := (sound_diff numberLength before after).reaches equal (owned 0)
    obtain ⟨values, later, all⟩ := ih next fun k => owned (k + 1)
    exact
      ⟨value :: values, bind_eq_ok.mpr ⟨value, here, bind_eq_ok.mpr ⟨values, later, rfl⟩⟩,
        .cons next all⟩

theorem differences_valid {before : Revision heap} {rest : List (Revision heap)} :
    ∀ batch ∈ differences numberLength before rest, ∀ op ∈ batch, op.Valid := by
  induction rest generalizing before with
  | nil => exact fun _ member => absurd member List.not_mem_nil
  | cons after rest ih =>
    exact List.forall_mem_cons.mpr ⟨(sound_diff numberLength before after).valid, ih⟩

/-- A reader that joins where the first revision is sent, after any batches and
with any value, decodes the rest and takes every revision in order. -/
theorem replica_follows (earlier : List (List (Op Unit))) (first : Revision heap)
    (rest : List (Revision heap)) (owned : ℕ → ℕ → Bool) (replica : JsonValue) :
    ∃ values,
      (decodeBatches
          ((encodeBatches (earlier ++ published numberLength first rest)).drop earlier.length) >>=
        follow owned replica) = .ok values ∧
      List.Forall₂ Shows values (first :: rest) := by
  have suffix :
      (encodeBatches (earlier ++ published numberLength first rest)).drop earlier.length =
        (codec.encodeStream (codec.encodeStream encoder earlier).1
          (published numberLength first rest)).2 := by
    rw [encodeBatches, codec.encodeStream_append]
    exact List.drop_left' (codec.encodeStream_length encoder earlier)
  obtain ⟨value, whole, isFirst⟩ :=
    (sound_replace replica first.value.erase).reaches (.same replica) (owned 0)
  obtain ⟨values, later, all⟩ :=
    @follow_differences _ _ _ numberLength first rest value isFirst fun k => owned (k + 1)
  have taken : follow owned replica (published numberLength first rest) = .ok (value :: values) :=
    bind_eq_ok.mpr ⟨value, whole, bind_eq_ok.mpr ⟨values, later, rfl⟩⟩
  refine ⟨value :: values, bind_eq_ok.mpr ⟨published numberLength first rest, ?_, taken⟩,
    .cons isFirst all⟩
  have allowed : ∀ batch ∈ [] :: differences numberLength first rest, ∀ op ∈ batch, op.Valid :=
    List.forall_mem_cons.mpr ⟨fun _ member => absurd member List.not_mem_nil, differences_valid⟩
  have isBase : isReplace (.r first.value.erase) := rfl
  obtain ⟨next, decoded, _⟩ := codecMirror.recovers isBase allowed
  rw [suffix, decodeBatches, published, decoded]
  rfl

end PiEmbodied.Chord.Delta
