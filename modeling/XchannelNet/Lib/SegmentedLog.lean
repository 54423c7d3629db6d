import Mathlib.Data.List.Basic
import Mathlib.Data.List.Range
import Mathlib.Order.Basic
import Mathlib.Algebra.Order.Group.Nat

/-!
# SegmentedLog — an append-only log cut into segments

A log keeps its records in segments, the last of which is being written.
Records carry absolute indices: the first one ever written has the log's
`genesis` index. Appending writes to the last segment, rolling opens a new
one, pruning removes whole oldest segments from view.

The model remembers what was pruned. Absolute indices then never move, and
"the record at index `i`" means one thing for the whole life of a log, read
by whoever still had the segment open.
-/

/-- A segmented log over records of type `α`. The segment being written is
apart from the closed ones and can not be pruned. -/
structure SegLog (α : Type*) where
  genesis : ℕ
  closed : List (List α)
  current : List α
  pruned : ℕ
  pruned_le : pruned ≤ closed.length

namespace SegLog

variable {α : Type*}

/-- Every segment ever written, oldest first. -/
def segments (l : SegLog α) : List (List α) := l.closed ++ [l.current]

/-- Every record ever written. -/
def records (l : SegLog α) : List α := l.closed.flatten ++ l.current

/-- The index the next record will get. -/
def head (l : SegLog α) : ℕ := l.genesis + l.records.length

/-- The absolute index of the first record of segment `k`. -/
def segBase (l : SegLog α) (k : ℕ) : ℕ := l.genesis + (l.segments.take k).flatten.length

/-- The index of the earliest record still retained. -/
def earliest (l : SegLog α) : ℕ := l.segBase l.pruned

/-- The record at an absolute index, retained or not. -/
def get? (l : SegLog α) (i : ℕ) : Option α :=
  if l.genesis ≤ i then l.records[i - l.genesis]? else none

/-- The retained records with their indices, oldest first. -/
def contents (l : SegLog α) : List (α × ℕ) :=
  (l.records.drop (l.earliest - l.genesis)).zipIdx l.earliest

/-- A new, empty log. -/
def empty (genesis : ℕ) : SegLog α := ⟨genesis, [], [], 0, le_rfl⟩

def append (l : SegLog α) (a : α) : SegLog α := { l with current := l.current ++ [a] }

def roll (l : SegLog α) : SegLog α where
  genesis := l.genesis
  closed := l.closed ++ [l.current]
  current := []
  pruned := l.pruned
  pruned_le := by
    have := l.pruned_le
    simp only [List.length_append, List.length_cons, List.length_nil]
    omega

/-- Remove segments from the front until (at most) `k` are gone. -/
def prune (l : SegLog α) (k : ℕ) : SegLog α where
  genesis := l.genesis
  closed := l.closed
  current := l.current
  pruned := max l.pruned (min k l.closed.length)
  pruned_le := by
    have := l.pruned_le
    omega

/-- What a log does over time. -/
inductive Grow : SegLog α → SegLog α → Prop
  | append (l : SegLog α) (a : α) : Grow l (l.append a)
  | roll (l : SegLog α) : Grow l l.roll
  | prune (l : SegLog α) (k : ℕ) : Grow l (l.prune k)

/-! ## Records and indices -/

@[simp] theorem genesis_append (l : SegLog α) (a : α) : (l.append a).genesis = l.genesis := rfl
@[simp] theorem genesis_roll (l : SegLog α) : l.roll.genesis = l.genesis := rfl
@[simp] theorem genesis_prune (l : SegLog α) (k : ℕ) : (l.prune k).genesis = l.genesis := rfl

@[simp] theorem records_append (l : SegLog α) (a : α) :
    (l.append a).records = l.records ++ [a] := by
  simp [records, append]

@[simp] theorem records_roll (l : SegLog α) : l.roll.records = l.records := by
  simp [records, roll]

@[simp] theorem records_prune (l : SegLog α) (k : ℕ) : (l.prune k).records = l.records := rfl

@[simp] theorem head_empty (g : ℕ) : (empty g : SegLog α).head = g := by
  simp [head, records, empty]

@[simp] theorem head_append (l : SegLog α) (a : α) : (l.append a).head = l.head + 1 := by
  simp [head]
  omega

@[simp] theorem head_roll (l : SegLog α) : l.roll.head = l.head := by
  simp [head]

@[simp] theorem head_prune (l : SegLog α) (k : ℕ) : (l.prune k).head = l.head := rfl

@[simp] theorem get?_roll (l : SegLog α) (i : ℕ) : l.roll.get? i = l.get? i := by
  simp [get?]

@[simp] theorem get?_prune (l : SegLog α) (k i : ℕ) : (l.prune k).get? i = l.get? i := rfl

theorem get?_append_of_lt {l : SegLog α} {i : ℕ} (a : α) (h : i < l.head) :
    (l.append a).get? i = l.get? i := by
  simp only [get?, genesis_append, records_append]
  split
  · rw [List.getElem?_append_left]
    simp only [head] at h
    omega
  · rfl

@[simp] theorem get?_append_head (l : SegLog α) (a : α) : (l.append a).get? l.head = some a := by
  simp [get?, head]

theorem get?_isSome_iff {l : SegLog α} {i : ℕ} :
    (∃ a, l.get? i = some a) ↔ l.genesis ≤ i ∧ i < l.head := by
  simp only [get?, head]
  split
  · rename_i h
    rw [← Option.isSome_iff_exists, isSome_getElem?]
    omega
  · rename_i h
    simp [h]

theorem flatten_segments (l : SegLog α) : l.segments.flatten = l.records := by
  simp [segments, records]

theorem length_flatten_take_le (L : List (List α)) (k : ℕ) :
    (L.take k).flatten.length ≤ L.flatten.length := by
  conv_rhs => rw [← List.take_append_drop k L, List.flatten_append, List.length_append]
  exact Nat.le_add_right _ _

theorem segBase_le_head (l : SegLog α) (k : ℕ) : l.segBase k ≤ l.head := by
  rw [segBase, head, ← flatten_segments]
  exact Nat.add_le_add_left (length_flatten_take_le _ _) _

theorem earliest_le_head (l : SegLog α) : l.earliest ≤ l.head := segBase_le_head _ _

theorem genesis_le_earliest (l : SegLog α) : l.genesis ≤ l.earliest := Nat.le_add_right _ _

/-- The retained records are those at the indices from `earliest` to `head`. -/
theorem contents_eq (l : SegLog α) :
    l.contents.map (fun x => (x.2, some x.1)) =
      (List.range' l.earliest (l.head - l.earliest)).map (fun i => (i, l.get? i)) := by
  have hg := l.genesis_le_earliest
  apply List.ext_getElem?
  intro j
  simp only [contents, List.getElem?_map, List.getElem?_zipIdx, List.getElem?_drop,
    get?, head]
  by_cases hj : j < l.genesis + l.records.length - l.earliest
  · have hidx : l.earliest - l.genesis + j < l.records.length := by omega
    have hsub : l.earliest + j - l.genesis = l.earliest - l.genesis + j := by omega
    have hge : l.genesis ≤ l.earliest + j := by omega
    simp [hj, hidx, hsub, hge]
  · have hidx : l.records.length ≤ l.earliest - l.genesis + j := by omega
    simp [hj, hidx]

/-! ## Retention -/

/-- The index is stable under growth as long as the position is. -/
theorem segBase_eq {l : SegLog α} {k : ℕ} (h : k ≤ l.closed.length) :
    l.segBase k = l.genesis + (l.closed.take k).flatten.length := by
  rw [segBase, segments, List.take_append_of_le_length h]

@[simp] theorem earliest_empty (g : ℕ) : (empty g : SegLog α).earliest = g := rfl

@[simp] theorem earliest_append (l : SegLog α) (a : α) : (l.append a).earliest = l.earliest := by
  rw [earliest, earliest, segBase_eq l.pruned_le, segBase_eq (l.append a).pruned_le]
  rfl

@[simp] theorem earliest_roll (l : SegLog α) : l.roll.earliest = l.earliest := by
  rw [earliest, earliest, segBase_eq l.pruned_le, segBase_eq l.roll.pruned_le]
  simp only [roll, List.take_append_of_le_length l.pruned_le]

theorem earliest_le_prune (l : SegLog α) (k : ℕ) : l.earliest ≤ (l.prune k).earliest := by
  have hle : l.pruned ≤ (l.prune k).pruned := le_max_left _ _
  show l.genesis + _ ≤ l.genesis + (l.segments.take (l.prune k).pruned).flatten.length
  rw [← Nat.min_eq_left hle, ← List.take_take]
  exact Nat.add_le_add_left (length_flatten_take_le _ _) _

@[simp] theorem prune_zero (l : SegLog α) : l.prune 0 = l := by
  simp [prune]

theorem contents_map_fst (l : SegLog α) :
    l.contents.map Prod.fst = l.records.drop (l.earliest - l.genesis) := by
  simp [contents]

/-- Retention never reaches the segment being written. -/
theorem current_suffix_contents (l : SegLog α) : l.current <:+ l.contents.map Prod.fst := by
  have hle : l.earliest - l.genesis ≤ l.closed.flatten.length := by
    rw [earliest, segBase_eq l.pruned_le, Nat.add_sub_cancel_left]
    exact length_flatten_take_le _ _
  rw [contents_map_fst, records, List.drop_append_of_le_length hle]
  exact List.suffix_append _ _

/-! ## Growth -/

theorem Grow.genesis_eq {l l' : SegLog α} (h : Grow l l') : l'.genesis = l.genesis := by
  cases h <;> rfl

theorem Grow.head_le {l l' : SegLog α} (h : Grow l l') : l.head ≤ l'.head := by
  cases h <;> simp

theorem Grow.get?_eq {l l' : SegLog α} (h : Grow l l') {i : ℕ} (hi : i < l.head) :
    l'.get? i = l.get? i := by
  cases h with
  | append a => exact get?_append_of_lt a hi
  | roll => exact get?_roll l i
  | prune k => rfl

/-! ## One log as a window of another -/

/-- `w` holds what `l` holds, over a contiguous range of absolute indices. -/
structure IsWindowOf (w l : SegLog α) : Prop where
  genesis_le : l.genesis ≤ w.genesis
  head_le : w.head ≤ l.head
  get?_eq : ∀ i, w.genesis ≤ i → i < w.head → w.get? i = l.get? i

theorem IsWindowOf.empty {l : SegLog α} {i : ℕ} (h₁ : l.genesis ≤ i) (h₂ : i ≤ l.head) :
    (SegLog.empty i).IsWindowOf l where
  genesis_le := h₁
  head_le := by
    rw [head_empty]
    exact h₂
  get?_eq := by
    intro j hj hlt
    rw [head_empty] at hlt
    exact absurd hj (Nat.not_le.mpr hlt)

/-- The log may grow. -/
theorem IsWindowOf.grow {w l l' : SegLog α} (h : w.IsWindowOf l) (hg : Grow l l') :
    w.IsWindowOf l' where
  genesis_le := by
    rw [hg.genesis_eq]
    exact h.genesis_le
  head_le := h.head_le.trans hg.head_le
  get?_eq := by
    intro i hi hlt
    rw [h.get?_eq i hi hlt, hg.get?_eq (hlt.trans_le h.head_le)]

theorem IsWindowOf.roll {w l : SegLog α} (h : w.IsWindowOf l) : w.roll.IsWindowOf l where
  genesis_le := h.genesis_le
  head_le := by
    rw [head_roll]
    exact h.head_le
  get?_eq := by
    intro i hi hlt
    rw [head_roll] at hlt
    rw [get?_roll]
    exact h.get?_eq i hi hlt

theorem IsWindowOf.prune {w l : SegLog α} (h : w.IsWindowOf l) (k : ℕ) :
    (w.prune k).IsWindowOf l := ⟨h.genesis_le, h.head_le, h.get?_eq⟩

/-- The window may take in the log's record at its own head, and no other. -/
theorem IsWindowOf.append {w l : SegLog α} (h : w.IsWindowOf l) {a : α}
    (ha : l.get? w.head = some a) : (w.append a).IsWindowOf l where
  genesis_le := h.genesis_le
  head_le := by
    rw [head_append]
    exact (get?_isSome_iff.mp ⟨a, ha⟩).2
  get?_eq := by
    intro i hi hlt
    rw [head_append] at hlt
    rcases Nat.lt_succ_iff_lt_or_eq.mp hlt with hlt | rfl
    · rw [get?_append_of_lt a hlt]
      exact h.get?_eq i hi hlt
    · rw [get?_append_head, ha]

/-- What a window retains is a run of the log's own records. -/
theorem IsWindowOf.contents_eq {w l : SegLog α} (h : w.IsWindowOf l) :
    w.contents.map (fun x => (x.2, some x.1)) =
      (List.range' w.earliest (w.head - w.earliest)).map (fun i => (i, l.get? i)) := by
  rw [SegLog.contents_eq]
  apply List.map_congr_left
  intro i hi
  obtain ⟨j, hj, rfl⟩ := List.mem_range'.mp hi
  have hg := w.genesis_le_earliest
  rw [h.get?_eq _ (by omega) (by omega)]

/-! ## Reading forward -/

/-- A reading position: a segment and an offset into it. -/
structure Reader where
  seq : ℕ
  offset : ℕ
  deriving DecidableEq, Repr

/-- Read the next record of the given segments, of which the first has
ordinal `seq`. An exhausted segment is left as soon as a later one exists,
whether or not that holds a record yet. -/
def readFrom : List (List α) → ℕ → ℕ → Option α × Reader
  | [], seq, offset => (none, ⟨seq, offset⟩)
  | s :: rest, seq, offset =>
    match s[offset]? with
    | some a => (some a, ⟨seq, offset + 1⟩)
    | none =>
      match rest with
      | [] => (none, ⟨seq, offset⟩)
      | _ :: _ => readFrom rest (seq + 1) 0

namespace Reader

/-- Read the next record, if there is one. -/
def tryRead (l : SegLog α) (rd : Reader) : Option α × Reader :=
  readFrom (l.segments.drop rd.seq) rd.seq rd.offset

/-- The absolute index of the record a reader reads next. -/
def index (l : SegLog α) (rd : Reader) : ℕ := l.segBase rd.seq + rd.offset

/-- The position exists in the log. -/
def Valid (l : SegLog α) (rd : Reader) : Prop :=
  ∃ s, l.segments[rd.seq]? = some s ∧ rd.offset ≤ s.length

end Reader

/-- Where `readFrom` ends up, relative to the first of its segments. -/
theorem readFrom_spec {s : List α} (rest : List (List α)) (seq : ℕ) {offset : ℕ}
    (h : offset ≤ s.length) :
    (readFrom (s :: rest) seq offset).1 = (s :: rest).flatten[offset]? ∧
    ∃ k t, (readFrom (s :: rest) seq offset).2.seq = seq + k ∧ (s :: rest)[k]? = some t ∧
      (readFrom (s :: rest) seq offset).2.offset ≤ t.length ∧
      ((s :: rest).take k).flatten.length + (readFrom (s :: rest) seq offset).2.offset =
        offset + (if (readFrom (s :: rest) seq offset).1.isSome then 1 else 0) := by
  induction rest generalizing s seq offset with
  | nil =>
      rcases Nat.lt_or_eq_of_le h with hlt | rfl
      · simp only [readFrom, List.getElem?_eq_getElem hlt]
        refine ⟨by simp [hlt], 0, s, rfl, rfl, hlt, by simp⟩
      · simp only [readFrom, List.getElem?_eq_none (Nat.le_refl _)]
        exact ⟨by simp, 0, s, rfl, rfl, le_rfl, by simp⟩
  | cons s' rest ih =>
      rcases Nat.lt_or_eq_of_le h with hlt | rfl
      · simp only [readFrom, List.getElem?_eq_getElem hlt]
        refine ⟨?_, 0, s, rfl, rfl, hlt, by simp⟩
        rw [List.flatten_cons, List.getElem?_append_left hlt, List.getElem?_eq_getElem hlt]
      · -- the segment is exhausted: the reader moves on to the next one
        have hstep : readFrom (s :: s' :: rest) seq s.length =
            readFrom (s' :: rest) (seq + 1) 0 := by
          rw [readFrom, List.getElem?_eq_none (Nat.le_refl _)]
        obtain ⟨hval, k, t, hseq, ht, hoff, hlen⟩ := ih (s := s') (seq + 1) (Nat.zero_le _)
        rw [hstep]
        refine ⟨?_, k + 1, t, by omega, by simpa using ht, hoff, ?_⟩
        · conv_rhs => rw [List.flatten_cons, List.getElem?_append_right (Nat.le_refl _),
            Nat.sub_self]
          exact hval
        · rw [List.take_succ_cons, List.flatten_cons, List.length_append]
          omega

/-- **A read returns the record at the reader's index** and moves past it;
at the head it returns nothing and the index stays. -/
theorem Reader.tryRead_spec {l : SegLog α} {rd : Reader} (h : rd.Valid l) :
    (rd.tryRead l).1 = l.get? (rd.index l) ∧ (rd.tryRead l).2.Valid l ∧
    (rd.tryRead l).2.index l =
      rd.index l + (if (rd.tryRead l).1.isSome then 1 else 0) := by
  obtain ⟨s, hs, hoff⟩ := h
  have hlt : rd.seq < l.segments.length := (List.getElem?_eq_some_iff.mp hs).1
  have hdrop : l.segments.drop rd.seq = s :: l.segments.drop (rd.seq + 1) := by
    rw [List.drop_eq_getElem_cons hlt]
    rw [List.getElem?_eq_getElem hlt, Option.some.injEq] at hs
    rw [hs]
  obtain ⟨hval, k, t, hseq, ht, hoff', hlen⟩ :=
    readFrom_spec (l.segments.drop (rd.seq + 1)) rd.seq hoff
  rw [← hdrop] at hval hseq ht hoff' hlen
  refine ⟨?_, ⟨t, ?_, hoff'⟩, ?_⟩
  · change (readFrom (l.segments.drop rd.seq) rd.seq rd.offset).1 = _
    rw [hval, get?, if_pos (by rw [index, segBase]; omega), ← flatten_segments, index, segBase]
    conv_rhs => rw [← List.take_append_drop rd.seq l.segments, List.flatten_append]
    rw [List.getElem?_append_right (by simp; omega)]
    congr 1
    simp
    omega
  · change l.segments[(readFrom (l.segments.drop rd.seq) rd.seq rd.offset).2.seq]? = some t
    rw [hseq, ← ht, List.getElem?_drop]
  · change l.segBase (readFrom (l.segments.drop rd.seq) rd.seq rd.offset).2.seq +
      (readFrom (l.segments.drop rd.seq) rd.seq rd.offset).2.offset = _
    rw [hseq, segBase, List.take_add, List.flatten_append, List.length_append, index, segBase]
    change _ = _ + (if (readFrom (l.segments.drop rd.seq) rd.seq rd.offset).1.isSome then 1 else 0)
    omega

theorem Reader.Valid.seq_le {l : SegLog α} {rd : Reader} (h : rd.Valid l) :
    rd.seq ≤ l.closed.length := by
  obtain ⟨s, hs, -⟩ := h
  have := (List.getElem?_eq_some_iff.mp hs).1
  simp only [segments, List.length_append, List.length_cons, List.length_nil] at this
  omega

theorem Reader.Valid.grow {l l' : SegLog α} {rd : Reader} (h : rd.Valid l) (hg : Grow l l') :
    rd.Valid l' ∧ rd.index l' = rd.index l := by
  have hseq := h.seq_le
  obtain ⟨s, hs, hoff⟩ := h
  cases hg with
  | append a =>
      refine ⟨?_, ?_⟩
      · rcases Nat.lt_or_eq_of_le hseq with hlt | heq
        · refine ⟨s, ?_, hoff⟩
          rw [segments, List.getElem?_append_left hlt] at hs
          rw [segments]
          exact (List.getElem?_append_left hlt).trans hs
        · rw [segments, heq] at hs
          simp only [List.getElem?_append_right (Nat.le_refl _), Nat.sub_self,
            List.getElem?_cons_zero, Option.some.injEq] at hs
          refine ⟨l.current ++ [a], by simp [segments, append, heq], ?_⟩
          rw [List.length_append, hs]
          exact hoff.trans (Nat.le_add_right _ _)
      · rw [index, index, segBase_eq hseq, segBase_eq (l := l.append a) hseq]
        rfl
  | roll =>
      refine ⟨⟨s, ?_, hoff⟩, ?_⟩
      · have hlt : rd.seq < l.segments.length := (List.getElem?_eq_some_iff.mp hs).1
        exact (List.getElem?_append_left hlt).trans hs
      · have hseq' : rd.seq ≤ l.roll.closed.length := by
          simp only [SegLog.roll, List.length_append]
          omega
        rw [index, index, segBase_eq hseq, segBase_eq hseq']
        simp only [SegLog.roll, List.take_append_of_le_length hseq]
  | prune k => exact ⟨⟨s, hs, hoff⟩, rfl⟩

/-- The position of the earliest retained record. -/
theorem Reader.valid_earliest (l : SegLog α) : (⟨l.pruned, 0⟩ : Reader).Valid l := by
  have hlt : l.pruned < l.segments.length := by
    have := l.pruned_le
    simp only [segments, List.length_append, List.length_cons, List.length_nil]
    omega
  exact ⟨l.segments[l.pruned], List.getElem?_eq_getElem hlt, Nat.zero_le _⟩

/-! ## Where segments begin -/

/-- The indices at which a segment begins, the first one apart. Segments that
are empty begin where the one after them does. -/
def boundaries (l : SegLog α) : List ℕ :=
  (List.range l.closed.length).map fun j => l.segBase (j + 1)

@[simp] theorem boundaries_empty (g : ℕ) : (empty g : SegLog α).boundaries = [] := rfl

theorem mem_boundaries {l : SegLog α} {k : ℕ} :
    k ∈ l.boundaries ↔ ∃ j, 0 < j ∧ j ≤ l.closed.length ∧ l.segBase j = k := by
  simp only [boundaries, List.mem_map, List.mem_range]
  constructor
  · rintro ⟨j, hj, rfl⟩
    exact ⟨j + 1, Nat.succ_pos j, hj, rfl⟩
  · rintro ⟨j, hpos, hj, rfl⟩
    exact ⟨j - 1, by omega, by rw [Nat.sub_add_cancel hpos]⟩

@[simp] theorem boundaries_append (l : SegLog α) (a : α) :
    (l.append a).boundaries = l.boundaries := by
  refine List.map_congr_left fun j hj => ?_
  have hj' : j + 1 ≤ l.closed.length := List.mem_range.mp hj
  rw [segBase_eq hj', segBase_eq (l := l.append a) hj']
  rfl

@[simp] theorem boundaries_prune (l : SegLog α) (k : ℕ) : (l.prune k).boundaries = l.boundaries :=
  rfl

@[simp] theorem boundaries_roll (l : SegLog α) : l.roll.boundaries = l.boundaries ++ [l.head] := by
  have hlen : l.roll.closed.length = l.closed.length + 1 := by simp [roll]
  rw [boundaries, hlen, List.range_succ, List.map_append, List.map_singleton]
  congr 1
  · refine List.map_congr_left fun j hj => ?_
    have hj' : j + 1 ≤ l.closed.length := List.mem_range.mp hj
    rw [segBase_eq hj', segBase_eq (by omega)]
    simp only [roll, List.take_append_of_le_length hj']
  · rw [segBase_eq hlen.ge, ← hlen, List.take_length, head]
    simp [roll, records]

theorem segBase_mono (l : SegLog α) {j k : ℕ} (h : j ≤ k) : l.segBase j ≤ l.segBase k := by
  rw [segBase, segBase, ← Nat.min_eq_left h, ← List.take_take]
  exact Nat.add_le_add_left (length_flatten_take_le _ _) _

theorem segBase_succ {l : SegLog α} {k : ℕ} {s : List α} (h : l.segments[k]? = some s) :
    l.segBase (k + 1) = l.segBase k + s.length := by
  rw [segBase, segBase, List.take_add_one, h]
  simp
  omega

/-- A record that is read in the segment the reader is in is the next of that
segment; one that is read in another is its first. -/
theorem readFrom_offset {segs : List (List α)} {seq offset : ℕ} {a : α}
    (h : (readFrom segs seq offset).1 = some a) :
    (readFrom segs seq offset).2 = ⟨seq, offset + 1⟩ ∧
        (∃ s, segs[0]? = some s ∧ offset < s.length) ∨
      seq < (readFrom segs seq offset).2.seq ∧ (readFrom segs seq offset).2.offset = 1 := by
  fun_induction readFrom segs seq offset with
  | case1 => cases h
  | case2 s rest seq offset b hs =>
      exact .inl ⟨rfl, s, rfl, (List.getElem?_eq_some_iff.mp hs).1⟩
  | case3 => cases h
  | case4 s seq offset hs s' rest ih =>
      right
      rcases ih h with ⟨heq, -⟩ | ⟨hlt, hone⟩
      · rw [heq]
        exact ⟨Nat.lt_succ_self _, rfl⟩
      · exact ⟨Nat.lt_of_succ_lt hlt, hone⟩

theorem Reader.offset_ne_zero_of_tryRead {l : SegLog α} {rd : Reader} {a : α}
    (hread : (rd.tryRead l).1 = some a) : (rd.tryRead l).2.offset ≠ 0 := by
  rcases readFrom_offset hread with ⟨heq, -⟩ | ⟨-, hone⟩
  · have hsame : (rd.tryRead l).2 = ⟨rd.seq, rd.offset + 1⟩ := heq
    rw [hsame]
    exact Nat.succ_ne_zero _
  · have hfirst : (rd.tryRead l).2.offset = 1 := hone
    omega

/-- **A reader sees where segments begin**, by the segment it is in before and
after a read, unless it was at the beginning of one. -/
theorem Reader.mem_boundaries_iff {l : SegLog α} {rd : Reader} {a : α} (h : rd.Valid l)
    (hread : (rd.tryRead l).1 = some a) :
    ((rd.tryRead l).2.seq ≠ rd.seq → rd.index l ∈ l.boundaries) ∧
    (rd.offset ≠ 0 → rd.index l ∈ l.boundaries → (rd.tryRead l).2.seq ≠ rd.seq) := by
  obtain ⟨-, hvalid, hindex⟩ := Reader.tryRead_spec h
  rw [hread] at hindex
  rcases readFrom_offset hread with ⟨heq, s, hs, hoff⟩ | ⟨hlt, hone⟩
  · have hsame : (rd.tryRead l).2 = ⟨rd.seq, rd.offset + 1⟩ := heq
    refine ⟨fun hne => absurd (by rw [hsame]) hne, fun hpos hmem => ?_⟩
    obtain ⟨j, -, hj, hbase⟩ := mem_boundaries.mp hmem
    rw [List.getElem?_drop, Nat.add_zero] at hs
    have hnext := segBase_succ hs
    rw [Reader.index] at hbase
    rcases Nat.lt_or_ge rd.seq j with hlt | hge
    · have hmono : l.segBase (rd.seq + 1) ≤ l.segBase j := l.segBase_mono hlt
      omega
    · have hmono := l.segBase_mono hge
      omega
  · have hlt' : rd.seq < (rd.tryRead l).2.seq := hlt
    have hone' : (rd.tryRead l).2.offset = 1 := hone
    refine ⟨fun _ => mem_boundaries.mpr ⟨_, Nat.lt_of_le_of_lt (Nat.zero_le _) hlt',
      hvalid.seq_le, ?_⟩, fun _ _ => hlt'.ne'⟩
    rw [Reader.index, hone'] at hindex
    simp only [Option.isSome_some, if_true] at hindex
    omega

theorem Reader.Valid.index_le {l : SegLog α} {rd : Reader} (h : rd.Valid l) :
    rd.index l ≤ l.head := by
  obtain ⟨s, hs, hoff⟩ := h
  have hnext := segBase_succ hs
  have hle := l.segBase_le_head (rd.seq + 1)
  rw [Reader.index]
  omega

/-- Where a read that finds nothing may leave the reader: where it is, or at
the beginning of a later segment. -/
def Reader.drift (l : SegLog α) (rd : Reader) (j : ℕ) : Reader :=
  if 0 < j ∧ rd.seq + j ≤ l.closed.length then ⟨rd.seq + j, 0⟩ else rd

theorem Reader.drift_eq_self {l : SegLog α} {rd : Reader} {j : ℕ}
    (h : (rd.drift l j).seq = rd.seq) : rd.drift l j = rd := by
  rw [drift] at h ⊢
  split at h <;> rename_i hj
  · dsimp only at h
    omega
  · rw [if_neg hj]

/-- No segment after the one of a reader with nothing to read has a record,
so that all of them begin where the reader is. -/
theorem Reader.Valid.drift {l : SegLog α} {rd : Reader} (h : rd.Valid l)
    (hnone : l.get? (rd.index l) = none) (j : ℕ) :
    (rd.drift l j).Valid l ∧ (rd.drift l j).index l = rd.index l := by
  rw [Reader.drift]
  split
  · rename_i hj
    have hseg : rd.seq + j < l.segments.length := by
      simp only [segments, List.length_append, List.length_cons, List.length_nil]
      omega
    refine ⟨⟨_, List.getElem?_eq_getElem hseg, Nat.zero_le _⟩, ?_⟩
    have hat : l.head ≤ rd.index l := by
      by_contra hlt
      have hge : l.genesis ≤ rd.index l := by
        rw [Reader.index, segBase]
        omega
      obtain ⟨a, ha⟩ := get?_isSome_iff.mpr ⟨hge, not_le.mp hlt⟩
      rw [hnone] at ha
      cases ha
    obtain ⟨s, hs, hoff⟩ := h
    have hnext := segBase_succ hs
    have hmono : l.segBase (rd.seq + 1) ≤ l.segBase (rd.seq + j) := l.segBase_mono (by omega)
    have hle := l.segBase_le_head (rd.seq + j)
    simp only [Reader.index] at hat ⊢
    omega
  · exact ⟨h, rfl⟩

/-- Growth adds no boundary below the head, and takes none away. -/
theorem Grow.mem_boundaries {l l' : SegLog α} (h : Grow l l') {k : ℕ} :
    (k ∈ l.boundaries → k ∈ l'.boundaries) ∧
      (k < l.head → k ∈ l'.boundaries → k ∈ l.boundaries) := by
  cases h with
  | append a => simp
  | roll =>
      rw [boundaries_roll, List.mem_append, List.mem_singleton]
      refine ⟨.inl, fun hlt hmem => hmem.resolve_right hlt.ne⟩
  | prune k => simp

end SegLog
