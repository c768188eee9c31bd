import Mathlib.Data.List.Basic
import Mathlib.Tactic.Common

/-!
# Segments — a stream cut at its delimiters

The maximal delimiter-free pieces of a stream: the segments, which a delimiter follows, and the
tail behind the last delimiter.
-/

namespace CobsIoAsync.Reasoning.Segments

variable {α : Type} [DecidableEq α] (d : α)

/-- The pieces that are followed by a delimiter. -/
def segments (stream : List α) : List (List α) := (stream.splitOn d).dropLast

/-- The piece behind the last delimiter. -/
def tail (stream : List α) : List α := (stream.splitOn d).getLast (List.splitOn_ne_nil d stream)

/-- The segments that are not empty and shorter than `capacity`. -/
def frames (capacity : Nat) (stream : List α) : List (List α) :=
  (segments d stream).filter fun segment => segment ≠ [] ∧ segment.length < capacity

/-- The segments that are not empty. -/
def bodies (stream : List α) : List (List α) := (segments d stream).filter fun segment => segment ≠ []

variable {d}

@[simp] theorem segments_nil : segments d [] = [] := rfl

@[simp] theorem tail_nil : tail d [] = [] := rfl

@[simp] theorem frames_nil (capacity : Nat) : frames d capacity [] = [] := rfl

theorem splitOn_eq (stream : List α) : stream.splitOn d = segments d stream ++ [tail d stream] :=
  (List.dropLast_append_getLast _).symm

/-- A stream without delimiters is its own tail. -/
theorem splitOn_of_notMem {stream : List α} (h : d ∉ stream) : stream.splitOn d = [stream] := by
  rw [List.splitOn_eq_splitOnP]
  refine List.splitOnP_eq_singleton fun x hx => ?_
  rw [beq_eq_false_iff_ne]
  exact fun heq => h (heq ▸ hx)

theorem splitOn_append_cons (xs ys : List α) :
    (xs ++ d :: ys).splitOn d = xs.splitOn d ++ ys.splitOn d := by
  simp only [List.splitOn_eq_splitOnP]
  exact List.splitOnP_append_cons xs ys (beq_self_eq_true d)

theorem eq_of_splitOn {stream last : List α} (pieces : List (List α))
    (h : stream.splitOn d = pieces ++ [last]) : segments d stream = pieces ∧ tail d stream = last := by
  have hsplit := (splitOn_eq stream).symm.trans h
  exact ⟨(List.append_inj' hsplit rfl).1, List.singleton_inj.mp (List.append_inj' hsplit rfl).2⟩

theorem segments_of_notMem {stream : List α} (h : d ∉ stream) : segments d stream = [] :=
  (eq_of_splitOn [] (splitOn_of_notMem h)).1

theorem tail_of_notMem {stream : List α} (h : d ∉ stream) : tail d stream = stream :=
  (eq_of_splitOn [] (splitOn_of_notMem h)).2

theorem segments_append_cons (xs ys : List α) :
    segments d (xs ++ d :: ys) = segments d xs ++ tail d xs :: segments d ys ∧
      tail d (xs ++ d :: ys) = tail d ys := by
  refine eq_of_splitOn _ ?_
  rw [splitOn_append_cons, splitOn_eq xs, splitOn_eq ys]
  simp

omit [DecidableEq α] in
theorem exists_last {stream : List α} (h : d ∈ stream) :
    ∃ xs ys, stream = xs ++ d :: ys ∧ d ∉ ys := by
  obtain ⟨as, bs, hreverse, has⟩ := List.eq_append_cons_of_mem (List.mem_reverse.mpr h)
  refine ⟨bs.reverse, as.reverse, ?_, by simpa using has⟩
  simpa using congrArg List.reverse hreverse

/-- A stream is its segments with their delimiters, and then its tail. -/
theorem exists_front (stream : List α) : ∃ front, stream = front ++ tail d stream ∧
    tail d front = [] ∧ segments d front = segments d stream ∧ d ∉ tail d stream := by
  by_cases hmem : d ∈ stream
  · obtain ⟨xs, ys, rfl, hys⟩ := exists_last hmem
    obtain ⟨hsegments, htail⟩ := segments_append_cons (d := d) xs ys
    obtain ⟨hsegments', htail'⟩ := segments_append_cons (d := d) xs []
    rw [htail, tail_of_notMem hys]
    exact ⟨xs ++ [d], by simp, htail',
      by rw [hsegments, hsegments', segments_of_notMem hys, segments_nil], hys⟩
  · rw [tail_of_notMem hmem]
    exact ⟨[], rfl, rfl, (segments_of_notMem hmem).symm, hmem⟩

/-- Behind a delimiter a stream starts anew. -/
theorem append_of_tail_nil {front : List α} (h : tail d front = []) (stream : List α) :
    segments d (front ++ stream) = segments d front ++ segments d stream ∧
      tail d (front ++ stream) = tail d stream := by
  by_cases hmem : d ∈ front
  · obtain ⟨xs, ys, rfl, hys⟩ := exists_last hmem
    obtain ⟨hsegments, htail⟩ := segments_append_cons (d := d) xs ys
    rw [htail, tail_of_notMem hys] at h
    subst h
    rw [List.append_assoc, List.cons_append, List.nil_append]
    rw [hsegments, segments_nil]
    obtain ⟨hsegments', htail'⟩ := segments_append_cons (d := d) xs stream
    exact ⟨by rw [hsegments', List.append_assoc]; rfl, htail'⟩
  · rw [tail_of_notMem hmem] at h
    subst h
    exact ⟨rfl, rfl⟩

/-- Bytes without a delimiter go to the tail. -/
theorem append_of_notMem (stream : List α) {more : List α} (h : d ∉ more) :
    segments d (stream ++ more) = segments d stream ∧
      tail d (stream ++ more) = tail d stream ++ more := by
  obtain ⟨front, hstream, htail, hsegments, hnotMem⟩ := exists_front (d := d) stream
  have hmore : d ∉ tail d stream ++ more := by simp [hnotMem, h]
  have happend := append_of_tail_nil htail (tail d stream ++ more)
  rw [← List.append_assoc, ← hstream, segments_of_notMem hmore, List.append_nil, hsegments,
    tail_of_notMem hmore] at happend
  exact happend

/-- A delimiter ends the segment that has begun in the tail. -/
theorem append_segment (stream : List α) {more : List α} (h : d ∉ more) :
    segments d (stream ++ more ++ [d]) = segments d stream ++ [tail d stream ++ more] ∧
      tail d (stream ++ more ++ [d]) = [] := by
  obtain ⟨hsegments, htail⟩ := segments_append_cons (d := d) (stream ++ more) []
  obtain ⟨hsegments', htail'⟩ := append_of_notMem stream h
  rw [hsegments', htail', segments_nil] at hsegments
  exact ⟨hsegments, htail⟩

/-- Nothing is left behind a delimiter. -/
theorem tail_of_last {stream : List α} (h : stream = [] ∨ stream.getLast? = some d) :
    tail d stream = [] := by
  rcases h with rfl | hlast
  · rfl
  · obtain ⟨front, rfl⟩ := List.getLast?_eq_some_iff.mp hlast
    exact (segments_append_cons front []).2

theorem length_tail_le (stream : List α) : (tail d stream).length ≤ stream.length := by
  obtain ⟨front, hstream, -⟩ := exists_front (d := d) stream
  have hlen := congrArg List.length hstream
  rw [List.length_append] at hlen
  omega

theorem length_le_of_mem_segments {segment stream : List α} (h : segment ∈ segments d stream) :
    segment.length ≤ stream.length := by
  induction hlen : stream.length using Nat.strongRecOn generalizing stream with
  | ind m ih =>
      subst hlen
      by_cases hmem : d ∈ stream
      · obtain ⟨xs, ys, rfl, hys⟩ := exists_last hmem
        rw [(segments_append_cons xs ys).1, segments_of_notMem hys] at h
        have hlt : xs.length < (xs ++ d :: ys).length := by simp
        rcases List.mem_append.mp h with hxs | htail
        · exact Nat.le_trans (ih xs.length hlt hxs rfl) (Nat.le_of_lt hlt)
        · rw [List.mem_singleton.mp htail]
          exact Nat.le_trans (length_tail_le xs) (Nat.le_of_lt hlt)
      · rw [segments_of_notMem hmem] at h
        exact absurd h List.not_mem_nil

/-! ## Bodies -/

@[simp] theorem bodies_nil : bodies d [] = [] := rfl

/-- Delimiters in front of a stream add no bodies. -/
theorem bodies_padding (k : Nat) (stream : List α) :
    bodies d (List.replicate k d ++ stream) = bodies d stream := by
  induction k with
  | zero => rfl
  | succ k ih =>
      have hsegments := (segments_append_cons (d := d) [] (List.replicate k d ++ stream)).1
      simp only [List.nil_append, segments_nil, tail_nil] at hsegments
      rw [List.replicate_succ, List.cons_append, bodies, hsegments, ← ih, bodies]
      simp

theorem bodies_segment {segment : List α} (hne : segment ≠ []) (hnotMem : d ∉ segment)
    (stream : List α) : bodies d (segment ++ d :: stream) = segment :: bodies d stream := by
  rw [bodies, (segments_append_cons segment stream).1, segments_of_notMem hnotMem,
    tail_of_notMem hnotMem, List.nil_append, List.filter_cons, if_pos (by simpa using hne), bodies]

theorem length_le_of_mem_bodies {body stream : List α} (h : body ∈ bodies d stream) :
    body.length ≤ stream.length := length_le_of_mem_segments (List.mem_of_mem_filter h)

theorem bodies_append_of_tail_nil {front : List α} (h : tail d front = []) (stream : List α) :
    bodies d (front ++ stream) = bodies d front ++ bodies d stream := by
  rw [bodies, (append_of_tail_nil h stream).1, List.filter_append, bodies, bodies]

/-! ## Frames -/

variable (capacity : Nat)

/-- If every segment is short, all bodies are frames. -/
theorem frames_eq_bodies {stream : List α}
    (h : ∀ segment ∈ segments d stream, segment.length < capacity) :
    frames d capacity stream = bodies d stream := by
  refine List.filter_congr fun segment hsegment => ?_
  simp [h segment hsegment]

theorem frames_append_of_tail_nil {front : List α} (h : tail d front = []) (stream : List α) :
    frames d capacity (front ++ stream) = frames d capacity front ++ frames d capacity stream := by
  rw [frames, (append_of_tail_nil h stream).1, List.filter_append, frames, frames]

theorem frames_append_of_notMem (stream : List α) {more : List α} (h : d ∉ more) :
    frames d capacity (stream ++ more) = frames d capacity stream := by
  rw [frames, (append_of_notMem stream h).1, frames]

theorem frames_append_segment (stream : List α) {more : List α} (h : d ∉ more) :
    frames d capacity (stream ++ more ++ [d]) = frames d capacity stream ++
      if tail d stream ++ more ≠ [] ∧ (tail d stream ++ more).length < capacity then
        [tail d stream ++ more] else [] := by
  rw [frames, (append_segment stream h).1, List.filter_append, frames, List.filter_singleton]
  simp only [Bool.cond_decide]

/-- A stream that goes on keeps its frames. -/
theorem exists_frames_append (stream more : List α) :
    ∃ later, frames d capacity (stream ++ more) = frames d capacity stream ++ later := by
  obtain ⟨front, hstream, htail, hsegments, -⟩ := exists_front (d := d) stream
  have happend := frames_append_of_tail_nil capacity htail (tail d stream ++ more)
  rw [← List.append_assoc, ← hstream, frames.eq_1 d capacity front, hsegments] at happend
  exact ⟨_, happend⟩

/-- A frame between two delimiters is found wherever it stands. -/
theorem exists_frames_between (front : List α) {frame : List α} (hnotMem : d ∉ frame)
    (hne : frame ≠ []) (hlen : frame.length < capacity) (more : List α) :
    ∃ later, frames d capacity (front ++ [d] ++ frame ++ [d] ++ more) =
      frames d capacity (front ++ [d]) ++ [frame] ++ later := by
  have hfront : tail d (front ++ [d]) = [] := tail_of_last (.inr (by simp))
  have hframe := frames_append_segment capacity (front ++ [d]) hnotMem
  rw [hfront, List.nil_append, if_pos ⟨hne, hlen⟩] at hframe
  obtain ⟨later, hlater⟩ := exists_frames_append (d := d) capacity (front ++ [d] ++ frame ++ [d]) more
  exact ⟨later, by rw [hlater, hframe]⟩

/-- Pieces that end with a delimiter have their frames one after the other. -/
theorem frames_flatten {chunks : List (List α)} (h : ∀ chunk ∈ chunks, tail d chunk = []) :
    frames d capacity chunks.flatten = chunks.flatMap (frames d capacity) := by
  induction chunks with
  | nil => rfl
  | cons chunk chunks ih =>
      obtain ⟨hchunk, hchunks⟩ := List.forall_mem_cons.mp h
      rw [List.flatten_cons, frames_append_of_tail_nil capacity hchunk, ih hchunks,
        List.flatMap_cons]

/-- One frame between two delimiters. -/
theorem frames_delimited {frame : List α} (h : d ∉ frame) :
    frames d capacity (d :: (frame ++ [d])) =
      if frame ≠ [] ∧ frame.length < capacity then [frame] else [] := by
  have hopen : tail d [d] = [] := tail_of_last (.inr rfl)
  have hnone : frames d capacity [d] = [] := by
    simpa using frames_append_segment (d := d) capacity [] (List.not_mem_nil)
  have hframe := frames_append_segment capacity [d] h
  rw [hopen, hnone, List.nil_append, List.nil_append] at hframe
  simpa using hframe

theorem frames_padding (k : Nat) : frames d capacity (List.replicate k d) = [] := by
  have hbodies := bodies_padding (d := d) k []
  rw [List.append_nil] at hbodies
  refine List.filter_eq_nil_iff.mpr fun segment hsegment hframe => ?_
  have hmem : segment ∈ bodies d (List.replicate k d) :=
    List.mem_filter.mpr ⟨hsegment, by simpa using (by simpa using hframe : _ ∧ _).1⟩
  rw [hbodies] at hmem
  cases hmem

end CobsIoAsync.Reasoning.Segments
