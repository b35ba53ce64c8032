import FormBody.Decoder.Source

/-! Bodies that arrive in pieces. The first failure, or the first chunk with which there are more bytes
than the limit allows, settles what a stream comes to, whichever of the two comes first. Without either
it is settled by the bytes alone, however they are cut. -/
namespace FormBody

namespace Chunk

def content : Chunk → Bytes
  | .bytes content => content
  | .failure _ => []

def isFailure : Chunk → Bool
  | .bytes _ => false
  | .failure _ => true

def isEnd : Chunk → Bool
  | .bytes content => content.isEmpty
  | .failure _ => false

end Chunk

namespace Source

variable {limit : UInt64} {held body : Bytes} {chunks : List Chunk}

def contents (chunks : List Chunk) : Bytes := chunks.flatMap Chunk.content

theorem contents_append (front back : List Chunk) :
    contents (front ++ back) = contents front ++ contents back :=
  List.flatMap_append

theorem contents_take_succ {i : Nat} {chunk : Chunk} (here : chunks[i]? = some chunk) :
    contents (chunks.take (i + 1)) = contents (chunks.take i) ++ chunk.content := by
  rw [List.take_add_one, here, contents_append, Option.toList_some, contents, contents,
    List.flatMap_singleton]

/-- Collecting from the bytes that are held on. -/
def resume (limit : UInt64) (held : Bytes) (chunks : List Chunk) : Except DecodeError Bytes :=
  collectFrom limit held.length [held] chunks

/-- How the bytes that are held were cut does not matter. -/
theorem collectFrom_eq_resume (limit : UInt64) (kept : List Bytes) (chunks : List Chunk) :
    collectFrom limit kept.reverse.flatten.length kept chunks =
      resume limit kept.reverse.flatten chunks := by
  induction chunks generalizing kept with
  | nil => simp [resume, collectFrom]
  | cons chunk rest ih =>
    cases chunk with
    | failure reason => rfl
    | bytes content =>
      have joined (front : List Bytes) :
          (content :: front).reverse.flatten = front.reverse.flatten ++ content := by simp
      have one : [kept.reverse.flatten].reverse.flatten = kept.reverse.flatten := by simp
      have many := ih (content :: kept)
      have single := ih [content, kept.reverse.flatten]
      rw [joined, List.length_append] at many
      rw [joined, one, List.length_append] at single
      rw [resume, collectFrom, collectFrom, many, single]

theorem collect_eq_resume (limit : UInt64) (chunks : List Chunk) :
    collect limit chunks = resume limit [] chunks :=
  collectFrom_eq_resume limit [] chunks

theorem resume_nil (limit : UInt64) (held : Bytes) : resume limit held [] = .ok held := by
  simp [resume, collectFrom]

theorem resume_failure (limit : UInt64) (held : Bytes) (reason : String) (rest : List Chunk) :
    resume limit held (.failure reason :: rest) = .error (.readFailed reason) := rfl

theorem resume_bytes (limit : UInt64) (held content : Bytes) (rest : List Chunk) :
    resume limit held (.bytes content :: rest) =
      if limit.toNat < (held ++ content).length then .error (.bodyTooLarge limit)
      else resume limit (held ++ content) rest := by
  have cut := collectFrom_eq_resume limit [content, held] rest
  simp only [List.reverse_cons, List.reverse_nil, List.nil_append, List.cons_append,
    List.flatten_cons, List.flatten_nil, List.append_nil] at cut
  rw [resume, collectFrom, ← cut, List.length_append]

theorem resume_append (limit : UInt64) (held : Bytes) (front back : List Chunk) :
    resume limit held (front ++ back) =
      (resume limit held front).bind fun all => resume limit all back := by
  induction front generalizing held with
  | nil => rw [List.nil_append, resume_nil]; rfl
  | cons chunk front ih =>
    cases chunk with
    | failure reason => rfl
    | bytes content =>
      rw [List.cons_append, resume_bytes, resume_bytes]
      split
      · rfl
      · exact ih (held ++ content)

theorem of_resume_eq_ok (h : resume limit held chunks = .ok body) (fits : held.length ≤ limit.toNat) :
    body = held ++ contents chunks ∧ body.length ≤ limit.toNat := by
  induction chunks generalizing held with
  | nil =>
    rw [resume_nil] at h
    cases h
    exact ⟨(List.append_nil _).symm, fits⟩
  | cons chunk rest ih =>
    cases chunk with
    | failure reason => cases h
    | bytes content =>
      rw [resume_bytes] at h
      split at h
      · cases h
      · next room =>
        obtain ⟨rfl, fits⟩ := ih h (Nat.not_lt.mp room)
        exact ⟨List.append_assoc .., fits⟩

theorem resume_map_bytes (pieces : List Bytes) (fits : held.length ≤ limit.toNat) :
    resume limit held (pieces.map .bytes) =
      if limit.toNat < (held ++ pieces.flatten).length then .error (.bodyTooLarge limit)
      else .ok (held ++ pieces.flatten) := by
  induction pieces generalizing held with
  | nil =>
    rw [List.map_nil, resume_nil, List.flatten_nil, List.append_nil, if_neg (Nat.not_lt.mpr fits)]
  | cons piece pieces ih =>
    rw [List.map_cons, resume_bytes, List.flatten_cons, ← List.append_assoc]
    split
    · next large =>
      rw [if_pos]
      rw [List.length_append]
      omega
    · next room => exact ih (Nat.not_lt.mp room)

/-- The chunk at an index fails, or with it there are more bytes than the limit allows. -/
def StopsAt (limit : UInt64) (chunks : List Chunk) (i : Nat) : Prop :=
  ∃ chunk ∈ chunks[i]?, chunk.isFailure ∨ limit.toNat < (contents (chunks.take (i + 1))).length

instance (limit : UInt64) (chunks : List Chunk) (i : Nat) : Decidable (StopsAt limit chunks i) :=
  inferInstanceAs (Decidable (∃ chunk ∈ chunks[i]?, _))

def StopsFirst (limit : UInt64) (chunks : List Chunk) (i : Nat) : Prop :=
  StopsAt limit chunks i ∧ ∀ j < i, ¬ StopsAt limit chunks j

instance (limit : UInt64) (chunks : List Chunk) (i : Nat) : Decidable (StopsFirst limit chunks i) :=
  inferInstanceAs (Decidable (_ ∧ _))

theorem collect_take {i : Nat} (calm : ∀ j < i, ¬ StopsAt limit chunks j) :
    collect limit (chunks.take i) = .ok (contents (chunks.take i)) := by
  induction i with
  | zero => rfl
  | succ i ih =>
    have before := ih fun j early => calm j (Nat.lt_succ_of_lt early)
    have here := calm i (Nat.lt_succ_self i)
    rw [collect_eq_resume] at before ⊢
    rw [List.take_add_one, resume_append, before]
    cases found : chunks[i]? with
    | none =>
      rw [Option.toList_none, List.append_nil]
      exact resume_nil _ _
    | some chunk =>
      have total := contents_take_succ found
      rw [List.take_add_one, found] at total
      cases chunk with
      | failure reason => exact absurd ⟨_, found, .inl rfl⟩ here
      | bytes content =>
        -- A chunk that stops nothing leaves room for itself.
        have room : ¬ limit.toNat < (contents (chunks.take i) ++ content).length := by
          intro large
          refine here ⟨_, found, .inr ?_⟩
          rwa [contents_take_succ found]
        change resume limit (contents (chunks.take i)) [.bytes content] = _
        rw [resume_bytes, if_neg room, resume_nil, total]
        rfl

theorem collect_eq_ok_of_calm (calm : ∀ i, ¬ StopsAt limit chunks i) :
    collect limit chunks = .ok (contents chunks) := by
  have all := collect_take (i := chunks.length) fun j _ => calm j
  rwa [List.take_length] at all

theorem collect_of_stopsFirst {i : Nat} {chunk : Chunk} (first : StopsFirst limit chunks i)
    (here : chunks[i]? = some chunk) :
    collect limit chunks = resume limit (contents (chunks.take i)) (chunk :: chunks.drop (i + 1)) := by
  obtain ⟨inside, rfl⟩ := List.getElem?_eq_some_iff.mp here
  have before := collect_take first.2
  rw [collect_eq_resume] at before
  have split := resume_append limit [] (chunks.take i) (chunks.drop i)
  rw [List.take_append_drop, before, List.drop_eq_getElem_cons inside] at split
  rw [collect_eq_resume, split]
  rfl

theorem collect_of_failure {i : Nat} {reason : String} (first : StopsFirst limit chunks i)
    (here : chunks[i]? = some (.failure reason)) :
    collect limit chunks = .error (.readFailed reason) := by
  rw [collect_of_stopsFirst first here, resume_failure]

theorem collect_of_excess {i : Nat} {content : Bytes} (first : StopsFirst limit chunks i)
    (here : chunks[i]? = some (.bytes content)) :
    collect limit chunks = .error (.bodyTooLarge limit) := by
  obtain ⟨chunk, found, stops⟩ := first.1
  obtain rfl : .bytes content = chunk := Option.some.inj (here.symm.trans found)
  have large : limit.toNat < (contents (chunks.take i) ++ content).length := by
    have stops := stops.resolve_left Bool.false_ne_true
    rwa [contents_take_succ here] at stops
  rw [collect_of_stopsFirst first here, resume_bytes, if_pos large]

/-- What a reader has to give before a read gives nothing. -/
def available (chunks : List Chunk) : List Chunk := chunks.takeWhile (!·.isEnd)

/-- The streams that can come of a reader: the bytes in their order, cut in any way, and the first
failure behind them. -/
inductive Serves (chunks : List Chunk) : List Chunk → Prop where
  | ended {front pieces : List Bytes} : available chunks = front.map .bytes →
      pieces.flatten = front.flatten → Serves chunks (pieces.map .bytes)
  | failed {front pieces : List Bytes} {reason : String} {more others : List Chunk} :
      available chunks = front.map .bytes ++ .failure reason :: more →
      pieces.flatten = front.flatten → Serves chunks (pieces.map .bytes ++ .failure reason :: others)

theorem flatten_pieces (capacity : Nat) (content : Bytes) : (pieces capacity content).flatten = content := by
  fun_induction pieces capacity content with
  | case1 => rfl
  | case2 b rest ih => rw [List.flatten_cons, ih, List.cons_append, List.take_append_drop]

theorem serves_ofReader (capacity : Nat) (chunks : List Chunk) :
    Serves chunks (ofReader capacity chunks) := by
  induction chunks with
  | nil => exact @Serves.ended [] [] [] rfl rfl
  | cons chunk rest ih =>
    cases chunk with
    | failure reason => exact @Serves.failed _ [] [] reason _ [] rfl rfl
    | bytes content =>
      rw [ofReader]
      split
      · next empty =>
        have nothing : available (.bytes content :: rest) = [] := by
          simp [available, Chunk.isEnd, empty]
        exact @Serves.ended _ [] [] nothing rfl
      · next filled =>
        have more : available (.bytes content :: rest) = .bytes content :: available rest := by
          simp [available, Chunk.isEnd, filled]
        generalize ofReader capacity rest = stream at ih
        cases ih with
        | @ended front others given same =>
          rw [← List.map_append]
          have behindFront : available (.bytes content :: rest) = (content :: front).map .bytes := by
            rw [more, given, List.map_cons]
          refine .ended behindFront ?_
          rw [List.flatten_append, flatten_pieces, same, List.flatten_cons]
        | @failed front others reason behind stream given same =>
          rw [← List.append_assoc, ← List.map_append]
          have behindFront : available (.bytes content :: rest) =
              (content :: front).map .bytes ++ .failure reason :: behind := by
            rw [more, given, List.map_cons, List.cons_append]
          refine .failed behindFront ?_
          rw [List.flatten_append, flatten_pieces, same, List.flatten_cons]

theorem collect_of_serves {stream : List Chunk} (served : Serves chunks stream) :
    collect limit stream = collect limit (available chunks) := by
  have fits : ([] : Bytes).length ≤ limit.toNat := Nat.zero_le _
  cases served with
  | ended given same =>
    rw [given, collect_eq_resume, collect_eq_resume, resume_map_bytes _ fits, resume_map_bytes _ fits,
      same]
  | failed given same =>
    rw [given, collect_eq_resume, collect_eq_resume, resume_append, resume_append,
      resume_map_bytes _ fits, resume_map_bytes _ fits, same]
    split <;> rfl

end Source

namespace Decoder

theorem decode_of_large {d : Decoder} {body : Bytes}
    (large : d.policy.sizes.wholeBody.toNat < body.length) :
    d.decode body = ⟨[], .error (.bodyTooLarge d.policy.sizes.wholeBody)⟩ := by
  have nonempty : body.isEmpty = false := by
    cases body with
    | nil => exact absurd large (Nat.not_lt_zero _)
    | cons b rest => rfl
  rw [decode, nonempty, if_neg Bool.false_ne_true, if_pos large]

variable {d : Decoder} {chunks : List Chunk}

theorem decodeStream_of_error {e : DecodeError}
    (h : Source.collect d.policy.sizes.wholeBody chunks = .error e) :
    d.decodeStream chunks = ⟨[], .error e⟩ := by
  rw [decodeStream, h]
  rfl

theorem decodeStream_of_ok {body : Bytes}
    (h : Source.collect d.policy.sizes.wholeBody chunks = .ok body) :
    d.decodeStream chunks = d.decode body := by
  rw [decodeStream, h]
  rfl

theorem decodeStream_map_bytes (d : Decoder) (pieces : List Bytes) :
    d.decodeStream (pieces.map .bytes) = d.decode pieces.flatten := by
  have start : ([] : Bytes).length ≤ d.policy.sizes.wholeBody.toNat := Nat.zero_le _
  have collected := Source.resume_map_bytes pieces start
  rw [← Source.collect_eq_resume, List.nil_append] at collected
  split at collected
  · next large => rw [decodeStream_of_error collected, decode_of_large large]
  · exact decodeStream_of_ok collected

theorem decodeStream_of_serves {stream : List Chunk} (served : Source.Serves chunks stream) :
    d.decodeStream stream = d.decodeStream (Source.available chunks) := by
  rw [decodeStream, Source.collect_of_serves served, decodeStream]

/-- Chunks are collected up to the first that fails or exceeds the limit, and that one decides the
error, whatever follows. If there is none the body is decoded as if it had come at once. What is held
on the way never exceeds the limit, any way to cut a body gives what decoding it gives, and a reader is
like the stream of what it gives before a read that gives nothing. -/
theorem decodeStream_eq_decode (d : Decoder) (chunks : List Chunk) :
    let limit := d.policy.sizes.wholeBody
    (∀ i reason, Source.StopsFirst limit chunks i → chunks[i]? = some (.failure reason) →
      (d.decodeStream chunks).result = .error (.readFailed reason)) ∧
    (∀ i content, Source.StopsFirst limit chunks i → chunks[i]? = some (.bytes content) →
      (d.decodeStream chunks).result = .error (.bodyTooLarge limit)) ∧
    ((∀ i, ¬ Source.StopsAt limit chunks i) →
      d.decodeStream chunks = d.decode (Source.contents chunks)) ∧
    (∀ n held, Source.collect limit (chunks.take n) = .ok held →
      held = Source.contents (chunks.take n) ∧ held.length ≤ limit.toNat ∧
        Source.collect limit chunks = Source.collectFrom limit held.length [held] (chunks.drop n)) ∧
    (∀ pieces : List Bytes, d.decodeStream (pieces.map .bytes) = d.decode pieces.flatten) ∧
    (∀ stream, Source.Serves chunks stream →
      d.decodeStream stream = d.decodeStream (Source.available chunks)) ∧
    d.decodeReader chunks = d.decodeStream (Source.available chunks) := by
  refine ⟨?_, ?_, ?_, ?_, d.decodeStream_map_bytes, ?_, ?_⟩
  · intro i reason first here
    rw [decodeStream_of_error (Source.collect_of_failure first here)]
  · intro i content first here
    rw [decodeStream_of_error (Source.collect_of_excess first here)]
  · exact fun calm => decodeStream_of_ok (Source.collect_eq_ok_of_calm calm)
  · intro n held collected
    have whole := Source.resume_append d.policy.sizes.wholeBody [] (chunks.take n) (chunks.drop n)
    rw [Source.collect_eq_resume] at collected
    rw [List.take_append_drop, collected, ← Source.collect_eq_resume] at whole
    obtain ⟨rfl, fits⟩ := Source.of_resume_eq_ok collected (Nat.zero_le _)
    exact ⟨rfl, fits, whole⟩
  · exact fun stream => decodeStream_of_serves
  · exact decodeStream_of_serves (Source.serves_ofReader _ chunks)

def threeBytes : Decoder :=
  ⟨"X", { Policy.lenient with sizes := { SizeLimits.unlimited with wholeBody := 3 } }⟩

/-- Four bytes in three chunks, and a failure behind them that comes too late to matter. -/
def fourBytes : List Chunk := [.bytes [97, 98], .bytes [], .bytes [99, 100], .failure "late"]

theorem decodeStream_eq_decode_fourBytes :
    (threeBytes.decodeStream fourBytes).result = .error (.bodyTooLarge 3) ∧
      (threeBytes.decodeStream (.failure "early" :: fourBytes)).result = .error (.readFailed "early") ∧
      threeBytes.decodeStream (fourBytes.take 2) = threeBytes.decode [97, 98] ∧
      Source.collect 3 fourBytes = Source.collectFrom 3 2 [[97, 98]] (fourBytes.drop 2) ∧
      threeBytes.decodeStream [.bytes [97], .bytes [98]] = threeBytes.decodeStream (fourBytes.take 1) ∧
      threeBytes.decodeReader fourBytes = threeBytes.decodeStream (fourBytes.take 1) := by
  obtain ⟨_, tooLarge, _, held, _, served, read⟩ := decodeStream_eq_decode threeBytes fourBytes
  obtain ⟨failed, _⟩ := decodeStream_eq_decode threeBytes (.failure "early" :: fourBytes)
  obtain ⟨_, _, whole, _⟩ := decodeStream_eq_decode threeBytes (fourBytes.take 2)
  have calm (i : Nat) : ¬ Source.StopsAt 3 (fourBytes.take 2) i := by
    rcases i with _ | _ | i
    · decide
    · decide
    · rintro ⟨chunk, found, _⟩
      cases found
  refine ⟨tooLarge 2 _ (by decide) rfl, failed 0 _ (by decide) rfl, whole calm, ?_, ?_, read⟩
  · exact (held 2 [97, 98] rfl).2.2
  · exact served _ (@Source.Serves.ended fourBytes [[97, 98]] [[97], [98]] rfl rfl)

end Decoder
end FormBody
