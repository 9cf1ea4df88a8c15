import Mathlib

/-!
# Frames in a stream

Frames are written one after the other into a stream, and a reader has had some of it. What it has
had cuts into whole frames and the beginning of the next (`Cut`) : the cut is that of the stream
alone (`Cut.lt_length_iff`), more frames do not move it (`Cut.mono`), and more of the stream either
stays within the next frame or ends it (`Cut.within`, `Cut.finish`).

Buffers are filled in place by `overwrite`.
-/

namespace Framing

variable {α : Type*}

/-! ## Buffers -/

/-- A buffer with some elements written over its own from a position. -/
def overwrite (pos : ℕ) (new buf : List α) : List α :=
  buf.take pos ++ new ++ buf.drop (pos + new.length)

theorem overwrite_append (new pre post : List α) :
    overwrite pre.length new (pre ++ post) = pre ++ new ++ post.drop new.length := by
  rw [overwrite, List.take_left, List.drop_append, List.drop_eq_nil_of_le (Nat.le_add_right _ _),
    List.nil_append, Nat.add_sub_cancel_left]

theorem length_overwrite {pos : ℕ} {new buf : List α} (h : pos + new.length ≤ buf.length) :
    (overwrite pos new buf).length = buf.length := by
  simp only [overwrite, List.length_append, List.length_take, List.length_drop]
  omega

/-! ## Cuts -/

variable {frames frames' full : List (List α)} {stream rest bs frame : List α}

/-- A beginning of the stream of some frames is whole frames and a rest, which is a proper part of
the next frame. -/
structure Cut (frames : List (List α)) (stream : List α) (full : List (List α)) (rest : List α) :
    Prop where
  full_prefix : full <+: frames
  stream_eq : stream = full.flatten ++ rest
  rest_proper : rest = [] ∨ ∃ frame, full ++ [frame] <+: frames ∧ rest <+: frame ∧ rest ≠ frame

theorem Cut.nil (frames : List (List α)) : Cut frames [] [] [] :=
  ⟨List.nil_prefix, rfl, Or.inl rfl⟩

theorem Cut.mono (h : Cut frames stream full rest) (hframes : frames <+: frames') :
    Cut frames' stream full rest where
  full_prefix := h.full_prefix.trans hframes
  stream_eq := h.stream_eq
  rest_proper := h.rest_proper.imp_right fun ⟨frame, hnext, hproper⟩ =>
    ⟨frame, hnext.trans hframes, hproper⟩

theorem prefix_flatten (h : full <+: frames) : full.flatten <+: frames.flatten := by
  obtain ⟨tail, rfl⟩ := h
  rw [List.flatten_append]
  exact List.prefix_append _ _

/-- There is a next frame where the stream goes on. -/
theorem Cut.next (h : Cut frames stream full rest) (hne : ∀ frame ∈ frames, frame ≠ [])
    (hbs : bs ≠ []) (hmore : stream ++ bs <+: frames.flatten) :
    ∃ frame tail, frames = full ++ frame :: tail ∧ rest <+: frame ∧ rest ≠ frame ∧
      rest ++ bs <+: frame ++ tail.flatten := by
  obtain ⟨tail, rfl⟩ := h.full_prefix
  rw [h.stream_eq, List.flatten_append, List.append_assoc, List.prefix_append_right_inj] at hmore
  cases tail with
  | nil =>
    rw [List.flatten_nil, List.prefix_nil] at hmore
    exact absurd (List.append_eq_nil_iff.mp hmore).2 hbs
  | cons frame tail =>
    refine ⟨frame, tail, rfl, ?_⟩
    rcases h.rest_proper with rfl | ⟨frame', hnext, hproper⟩
    · have hframe : frame ≠ [] := hne frame (by simp)
      exact ⟨List.nil_prefix, hframe.symm, hmore⟩
    · rw [List.prefix_append_right_inj, List.cons_prefix_cons] at hnext
      rw [hnext.1] at hproper
      exact ⟨hproper.1, hproper.2, hmore⟩

/-- The stream goes on within the next frame. -/
theorem Cut.within (h : Cut frames stream full rest) (hnext : full ++ [frame] <+: frames)
    (hpre : rest ++ bs <+: frame) (hne : rest ++ bs ≠ frame) :
    Cut frames (stream ++ bs) full (rest ++ bs) where
  full_prefix := h.full_prefix
  stream_eq := by rw [h.stream_eq, List.append_assoc]
  rest_proper := Or.inr ⟨frame, hnext, hpre, hne⟩

/-- The stream goes on to the end of the next frame. -/
theorem Cut.finish (h : Cut frames stream full rest) (hnext : full ++ [frame] <+: frames)
    (heq : rest ++ bs = frame) : Cut frames (stream ++ bs) (full ++ [frame]) [] where
  full_prefix := hnext
  stream_eq := by
    rw [h.stream_eq, List.append_assoc, heq, List.flatten_append, List.flatten_singleton,
      List.append_nil]
  rest_proper := Or.inl rfl

/-- The whole frames of a cut are those that the stream contains to their end. -/
theorem Cut.lt_length_iff (h : Cut frames stream full rest) (hne : ∀ frame ∈ frames, frame ≠ [])
    {i : ℕ} (hi : i < frames.length) :
    i < full.length ↔ (frames.take (i + 1)).flatten <+: stream := by
  obtain ⟨tail, rfl⟩ := h.full_prefix
  constructor
  · intro hlt
    rw [List.take_append_of_le_length hlt, h.stream_eq]
    exact (prefix_flatten (List.take_prefix _ _)).trans (List.prefix_append _ _)
  · intro hpre
    by_contra hge
    rw [not_lt] at hge
    cases tail with
    | nil =>
      rw [List.append_nil] at hi
      omega
    | cons frame tail =>
      have hsub : full ++ [frame] <+: (full ++ frame :: tail).take (i + 1) := by
        refine List.prefix_take_iff.mpr ⟨⟨tail, by simp⟩, ?_⟩
        rw [List.length_append, List.length_singleton]
        omega
      have hlen := ((prefix_flatten hsub).trans hpre).length_le
      rw [h.stream_eq, List.flatten_append, List.flatten_singleton, List.length_append,
        List.length_append] at hlen
      rcases h.rest_proper with rfl | ⟨frame', hnext, hpart, hproper⟩
      · have hframe := List.length_pos_iff.mpr (hne frame (by simp))
        rw [List.length_nil] at hlen
        omega
      · rw [List.prefix_append_right_inj, List.cons_prefix_cons] at hnext
        rw [hnext.1] at hpart hproper
        exact hproper (hpart.eq_of_length_le (by omega))

end Framing
