import XchannelNet.Mux.Rounds

/-!
# Batches — how much one poll takes

A poll grants each member `max_batch_per_member` calls of `merge_one`, and
`merge_one` itself goes round until it has merged a record or there is none
left. What it passes over on the way is not counted. So with the records ahead
of a member's reader given, what a poll takes of them is a function of the list
(`taken`), and it is within the batch exactly if the list is that short or
begins with a batch of records none of which is passed over (`Modest`).

The members' logs may grow while the poll is running. `Live` is the poll with
a clock: each time round the loop sees the files of its own moment. With files
that stand still it is the poll of the engine (`poll_still`).
-/

namespace XchannelNet

namespace Mux

open Fallible

variable {φ α β : Type}

/-! ## One time round the loop -/

/-- The body of `merge_one`'s loop: nothing to read, a record passed over, or
a record merged. -/
def round (files : φ → Log) (i : ℕ) (memberRef : UInt16) : MuxM φ (Option Bool) := do
  match ← readFrame files i with
  | none => return none
  | some f => do
    let m ← get
    if rejects m.geometry.mtu f.record then do
      modify (reject i f.index)
      return some false
    else do
      mergeFrame i memberRef f
      return some true

theorem mergeLoop_succ (files : φ → Log) (i : ℕ) (memberRef : UInt16) (fuel : ℕ) (m : Mux φ) :
    exec (mergeLoop files i memberRef (fuel + 1)) m =
      exec (round files i memberRef >>= fun x =>
        x.elim (pure false) fun merged =>
          if merged then pure true else mergeLoop files i memberRef fuel) m := by
  rw [Mux.mergeLoop, exec_bind (round files i memberRef), round]
  rcases hr : exec (readFrame files i) m with ⟨_ | _ | f, m₁⟩
  · rw [exec_bind_error hr, exec_bind_error hr]
  · rw [exec_bind_ok hr, exec_bind_ok hr]
    rfl
  · rw [exec_bind_ok hr, exec_bind_ok hr]
    simp only
    rw [exec_bind_ok (exec_get m₁), exec_bind_ok (exec_get m₁)]
    by_cases hrej : rejects m₁.geometry.mtu f.record = true
    · rw [if_pos hrej, if_pos hrej]
      rfl
    · rw [if_neg hrej, if_neg hrej]
      rcases hf : exec (mergeFrame i memberRef f) m₁ with ⟨_ | _, m₂⟩
      · rw [exec_bind_error hf, exec_bind_error hf]
      · rw [exec_bind_ok hf, exec_bind_ok hf]
        rfl

/-! ## A poll under way -/

structure Live (φ : Type) where
  mux : Mux φ
  clock : ℕ

abbrev LiveM (φ : Type) := Fallible MuxError (Live φ)

namespace Live

/-- An operation on the mux with the files as they are now; time passes. -/
def tick (now : ℕ → φ → Log) (p : (φ → Log) → MuxM φ α) : LiveM φ α :=
  ExceptT.mk fun s => ((exec (p (now s.clock)) s.mux).1,
    ⟨(exec (p (now s.clock)) s.mux).2, s.clock + 1⟩)

/-- The loop of `merge_one`, cut off after `fuel` rounds. -/
def mergeLoop (now : ℕ → φ → Log) (i : ℕ) (memberRef : UInt16) : ℕ → LiveM φ Bool
  | 0 => return false
  | fuel + 1 => do
    let x ← tick now fun files => round files i memberRef
    x.elim (pure false) fun merged =>
      if merged then pure true else mergeLoop now i memberRef fuel

def mergeOne (now : ℕ → φ → Log) (fuel : Slot φ → ℕ) (i : ℕ) : LiveM φ Bool := do
  let s ← get
  match s.mux.slots[i]? with
  | none => return false
  | some slot => mergeLoop now i slot.memberRef (fuel slot)

def pollSlot (now : ℕ → φ → Log) (fuel : Slot φ → ℕ) (i : ℕ) : ℕ → LiveM φ ℕ
  | 0 => return 0
  | batch + 1 => do
    if ← mergeOne now fuel i then do
      let merged ← pollSlot now fuel i batch
      return merged + 1
    else return 0

def pollSlots (now : ℕ → φ → Log) (fuel : Slot φ → ℕ) (batch : ℕ) : List ℕ → LiveM φ ℕ
  | [] => return 0
  | i :: is => do
    let merged ← pollSlot now fuel i batch
    let rest ← pollSlots now fuel batch is
    return merged + rest

def poll (now : ℕ → φ → Log) (fuel : Slot φ → ℕ) : LiveM φ ℕ := do
  let s ← get
  if s.mux.finished then return 0
  else pollSlots now fuel s.mux.maxBatchPerMember (List.range s.mux.slots.length)

/-! ## Files that stand still -/

/-- To the mux, and to the caller, `p` is `q`. -/
def Follows (p : LiveM φ α) (q : MuxM φ α) : Prop :=
  ∀ s, (exec p s).1 = (exec q s.mux).1 ∧ (exec p s).2.mux = (exec q s.mux).2

theorem Follows.pure (a : α) : Follows (φ := φ) (pure a) (pure a) := fun _ => ⟨rfl, rfl⟩

theorem Follows.bind {p : LiveM φ α} {q : MuxM φ α} {p' : α → LiveM φ β} {q' : α → MuxM φ β}
    (h : Follows p q) (h' : ∀ a, Follows (p' a) (q' a)) : Follows (p >>= p') (q >>= q') := by
  intro s
  obtain ⟨h₁, h₂⟩ := h s
  rcases hp : exec p s with ⟨r, s₁⟩
  rcases hq : exec q s.mux with ⟨r', m₁⟩
  rw [hp, hq] at h₁ h₂
  cases h₁
  cases h₂
  cases r with
  | ok a =>
      rw [exec_bind_ok hp, exec_bind_ok hq]
      exact h' a s₁
  | error e =>
      rw [exec_bind_error hp, exec_bind_error hq]
      exact ⟨rfl, rfl⟩

variable (files : φ → Log)

theorem mergeLoop_still (i : ℕ) (memberRef : UInt16) (fuel : ℕ) :
    Follows (mergeLoop (fun _ => files) i memberRef fuel)
      (Mux.mergeLoop files i memberRef fuel) := by
  induction fuel with
  | zero => exact .pure false
  | succ fuel ih =>
      have hround : Follows (tick (fun _ => files) fun files => round files i memberRef)
          (round files i memberRef) := fun s => ⟨rfl, rfl⟩
      have hrest : ∀ x : Option Bool,
          Follows (x.elim (pure false) fun merged =>
              if merged then pure true else mergeLoop (fun _ => files) i memberRef fuel)
            (x.elim (pure false) fun merged =>
              if merged then pure true else Mux.mergeLoop files i memberRef fuel) := by
        intro x
        rcases x with _ | _ | _
        · exact .pure false
        · exact ih
        · exact .pure true
      intro s
      rw [mergeLoop_succ]
      exact hround.bind hrest s

theorem mergeOne_still (i : ℕ) :
    Follows (mergeOne (fun _ => files) (Slot.fuel files) i) (Mux.mergeOne files i) := by
  intro s
  unfold mergeOne Mux.mergeOne
  rw [exec_bind_ok (exec_get s), exec_bind_ok (exec_get s.mux)]
  cases s.mux.slots[i]? with
  | none => exact ⟨rfl, rfl⟩
  | some slot => exact mergeLoop_still files i slot.memberRef _ s

theorem pollSlot_still (i batch : ℕ) :
    Follows (pollSlot (fun _ => files) (Slot.fuel files) i batch)
      (Mux.pollSlot files i batch) := by
  induction batch with
  | zero => exact .pure 0
  | succ batch ih =>
      refine (mergeOne_still files i).bind fun merged => ?_
      cases merged with
      | false => exact .pure 0
      | true => exact ih.bind fun _ => .pure _

theorem pollSlots_still (batch : ℕ) (is : List ℕ) :
    Follows (pollSlots (fun _ => files) (Slot.fuel files) batch is)
      (Mux.pollSlots files batch is) := by
  induction is with
  | nil => exact .pure 0
  | cons i is ih =>
      exact (pollSlot_still files i batch).bind fun _ => ih.bind fun _ => .pure _

/-- **The engine's poll is the live one** of files that stand still. -/
theorem poll_still :
    Follows (poll (fun _ => files) (Slot.fuel files)) (Mux.poll files) := by
  intro s
  unfold poll Mux.poll
  rw [exec_bind_ok (exec_get s), exec_bind_ok (exec_get s.mux)]
  by_cases hf : s.mux.finished = true
  · rw [if_pos hf, if_pos hf]
    exact ⟨rfl, rfl⟩
  · rw [if_neg hf, if_neg hf]
    exact pollSlots_still files _ _ s

end Live

/-! ## Where a slot is -/

/-- What slot `i` reads, from which file, and what is too long for the topic. -/
def reading (i : ℕ) (m : Mux φ) : Option (φ × ReplicationSource) × UInt32 :=
  (m.slots[i]?.map fun s => (s.file, s.source), m.geometry.mtu)

theorem reading_modify (m m' : Mux φ) (i j : ℕ) (g : Slot φ → Slot φ)
    (hslots : m'.slots = m.slots.modify j g) (hmtu : m'.geometry.mtu = m.geometry.mtu)
    (hg : j = i → ∀ s, (g s).file = s.file ∧ (g s).source = s.source) :
    reading i m' = reading i m := by
  unfold reading
  rw [hslots, hmtu, List.getElem?_modify]
  cases m.slots[i]? with
  | none => rfl
  | some s =>
      by_cases hji : j = i
      · simp [hji, hg hji s]
      · simp [hji]

theorem Becomes.reading {m m' : Mux φ} {log : Log} (h : m.Becomes log m') (i : ℕ) :
    m'.reading i = m.reading i := by
  rw [Mux.reading, Mux.reading, h.slots, h.geometry]

/-- Merging a frame that was read moves no reader, whether it goes through or not. -/
theorem mergeFrame_reading (i j : ℕ) (memberRef : UInt16) (f : RecordFrame) :
    Leaves (σ := Mux φ) (reading i) (mergeFrame j memberRef f) := by
  intro m
  obtain ⟨log, h | h⟩ := mergeFrame_becomes j memberRef f m
  · exact h.reading i
  · exact (h.reading i).trans (reading_modify m _ i j _ rfl rfl fun _ _ => ⟨rfl, rfl⟩)

section Rounds

variable (files : φ → Log) {i j : ℕ} (memberRef : UInt16)

/-- A round is about its own slot. -/
theorem round_reading_other (hij : j ≠ i) :
    Leaves (σ := Mux φ) (reading i) (round files j memberRef) := by
  have hread : Leaves (σ := Mux φ) (reading i) (readFrame files j) := by
    intro m
    cases hs : m.slots[j]? with
    | none => rw [exec_readFrame_none hs]
    | some s =>
        rw [exec_readFrame hs]
        exact reading_modify m _ i j _ rfl rfl fun h => absurd h hij
  refine hread.bind fun frame => ?_
  cases frame with
  | none => exact .pure none
  | some f =>
      refine .get fun m => ?_
      split
      · have hpassed : Leaves (ε := MuxError) (σ := Mux φ) (reading i)
            (modify (reject j f.index)) :=
          .modify fun m =>
            reading_modify m (reject j f.index m) i j _ rfl rfl fun h => absurd h hij
        exact hpassed.bind (fun _ => .pure _) m
      · exact (mergeFrame_reading i j memberRef f).bind (fun _ => .pure _) m

/-- A round on a slot takes the record the slot is at, if there is one. It is passed over,
or merged, or the poll fails. -/
theorem round_reading {m : Mux φ} {f : φ} {src : ReplicationSource} {mtu : UInt32}
    (h : reading i m = (some (f, src), mtu)) (hat : src.At (files f)) :
    ∃ src', src'.At (files f) ∧
      reading i (exec (round files i memberRef) m).2 = (some (f, src'), mtu) ∧
      ((files f).get? src.nextIndex = none ∧ src'.nextIndex = src.nextIndex ∧
          (exec (round files i memberRef) m).1 = .ok none ∨
        ∃ r, (files f).get? src.nextIndex = some r ∧ src'.nextIndex = src.nextIndex + 1 ∧
          (rejects mtu r = true ∧ (exec (round files i memberRef) m).1 = .ok (some false) ∨
            rejects mtu r = false ∧ ((exec (round files i memberRef) m).1 = .ok (some true) ∨
              ∃ e, (exec (round files i memberRef) m).1 = .error e))) := by
  obtain ⟨hslot, hmtu⟩ := Prod.mk.inj h
  obtain ⟨s, hs, hfs⟩ := Option.map_eq_some_iff.mp hslot
  obtain ⟨rfl, rfl⟩ := Prod.mk.inj hfs
  obtain ⟨hat', hnone, hsome⟩ := hat.tryNextFrame
  have hread := @exec_readFrame _ files _ _ _ hs
  have hset : reading i (m.setSource i (s.source.tryNextFrame (files s.file)).2) =
      (some (s.file, (s.source.tryNextFrame (files s.file)).2), mtu) := by
    simp [reading, setSource, hs, hmtu]
  refine ⟨_, hat', ?_⟩
  unfold round
  rw [exec_bind_ok hread]
  cases hf : (s.source.tryNextFrame (files s.file)).1 with
  | none => exact ⟨hset, .inl ⟨(hnone hf).1, (hnone hf).2, rfl⟩⟩
  | some frame =>
      obtain ⟨hindex, hof, hnext⟩ := hsome frame hf
      rw [RecordFrame.Of, hindex] at hof
      simp only
      rw [exec_bind_ok (exec_get _)]
      have hgeometry : (m.setSource i (s.source.tryNextFrame (files s.file)).2).geometry.mtu =
          mtu := hmtu
      rw [hgeometry]
      by_cases hrej : rejects mtu frame.record = true
      · rw [if_pos hrej, exec_bind_ok (exec_modify _ _), exec_pure]
        refine ⟨?_, .inr ⟨_, hof, hnext, .inl ⟨hrej, rfl⟩⟩⟩
        rw [← hset]
        exact reading_modify _ (reject i frame.index _) i i _ rfl rfl fun _ _ => ⟨rfl, rfl⟩
      · rw [if_neg hrej]
        have hkeeps := (mergeFrame_reading i i memberRef frame _).trans hset
        rcases hm : exec (mergeFrame i memberRef frame)
          (m.setSource i (s.source.tryNextFrame (files s.file)).2) with ⟨e | _, m₂⟩ <;>
          rw [hm] at hkeeps
        · rw [exec_bind_error hm]
          exact ⟨hkeeps, .inr ⟨_, hof, hnext, .inr ⟨by simpa using hrej, .inr ⟨e, rfl⟩⟩⟩⟩
        · rw [exec_bind_ok hm]
          exact ⟨hkeeps, .inr ⟨_, hof, hnext, .inr ⟨by simpa using hrej, .inl rfl⟩⟩⟩

end Rounds

/-! ## What a poll takes -/

/-- Of the records ahead, how many a poll with room for `batch` takes, where `bad` ones are
passed over. -/
def taken (bad : Record → Bool) : ℕ → List Record → ℕ
  | 0, _ => 0
  | _ + 1, [] => 0
  | batch + 1, r :: rs => 1 + if bad r then taken bad (batch + 1) rs else taken bad batch rs

@[simp] theorem taken_zero (bad : Record → Bool) (rs : List Record) : taken bad 0 rs = 0 := by
  cases rs <;> rfl

/-- A poll that takes fewer than it might has taken them all. -/
theorem taken_eq_length {bad : Record → Bool} {batch : ℕ} {rs : List Record}
    (h : taken bad batch rs < batch) : taken bad batch rs = rs.length := by
  induction rs generalizing batch with
  | nil => cases batch <;> simp [taken]
  | cons r rs ih =>
      cases batch with
      | zero => simp at h
      | succ batch =>
          simp only [taken] at h ⊢
          split at h
          · rw [if_pos ‹_›, ih (by omega), List.length_cons, Nat.add_comm]
          · rw [if_neg ‹_›, ih (by omega), List.length_cons, Nat.add_comm]

theorem taken_le_length (bad : Record → Bool) (batch : ℕ) (rs : List Record) :
    taken bad batch rs ≤ rs.length := by
  induction rs generalizing batch with
  | nil => cases batch <;> simp [taken]
  | cons r rs ih =>
      cases batch with
      | zero => simp [taken]
      | succ batch =>
          have hpassed := ih (batch + 1)
          have hmerged := ih batch
          simp only [taken, List.length_cons]
          split <;> omega

/-- There are no more than a batch ahead, or none of the next batch is passed over. -/
def Modest (bad : Record → Bool) (batch : ℕ) (rs : List Record) : Prop :=
  rs.length ≤ batch ∨ ∀ r ∈ rs.take batch, bad r = false

theorem taken_le_iff {bad : Record → Bool} {batch : ℕ} {rs : List Record} :
    taken bad batch rs ≤ batch ↔ Modest bad batch rs := by
  unfold Modest
  induction rs generalizing batch with
  | nil => cases batch <;> simp [taken]
  | cons r rs ih =>
      cases batch with
      | zero => simp [taken]
      | succ batch =>
          simp only [taken, List.length_cons, List.take_succ_cons, List.forall_mem_cons]
          split
          · -- passed over: the rest has to fit in what is left
            rename_i hbad
            simp only [hbad, reduceCtorEq, false_and, or_false]
            constructor
            · intro hle
              have hall : taken bad (batch + 1) rs = rs.length := taken_eq_length (by omega)
              omega
            · intro hle
              have hall := taken_le_length bad (batch + 1) rs
              omega
          · rename_i hgood
            rw [Bool.not_eq_true] at hgood
            simp only [hgood, true_and]
            rw [Nat.add_comm 1, Nat.add_le_add_iff_right, Nat.add_le_add_iff_right]
            exact ih

/-- The records of a log from an index on. -/
def ahead (l : Log) (x : ℕ) : List Record := l.records.drop (x - l.genesis)

theorem length_ahead {l : Log} {src : ReplicationSource} (h : src.At l) :
    (ahead l src.nextIndex).length + src.nextIndex = l.head := by
  have hle := h.valid.index_le
  have hge : l.genesis ≤ src.reader.index l.toSegLog := by
    rw [SegLog.Reader.index, SegLog.segBase]
    omega
  rw [h.index] at hle hge
  rw [ahead, List.length_drop]
  simp only [SegLog.head] at hle ⊢
  omega

theorem ahead_eq_nil {l : Log} {src : ReplicationSource} (h : src.At l)
    (hnone : l.get? src.nextIndex = none) : ahead l src.nextIndex = [] := by
  have hlen := length_ahead h
  have hnot := mt SegLog.get?_isSome_iff.mpr
    (by simp [hnone] : ¬ ∃ a, l.get? src.nextIndex = some a)
  have hge : l.genesis ≤ src.nextIndex := by
    rw [← h.index, SegLog.Reader.index, SegLog.segBase]
    omega
  rw [← List.length_eq_zero_iff]
  omega

theorem ahead_eq_cons {l : Log} {x : ℕ} {r : Record} (hr : l.get? x = some r) :
    ahead l x = r :: ahead l (x + 1) := by
  obtain ⟨hge, hlt⟩ := SegLog.get?_isSome_iff.mp ⟨r, hr⟩
  rw [SegLog.get?, if_pos hge, List.getElem?_eq_some_iff] at hr
  obtain ⟨hbound, hget⟩ := hr
  rw [ahead, ahead, List.drop_eq_getElem_cons hbound, hget]
  congr 2
  omega

namespace Live

section Run

variable (now : ℕ → φ → Log) (fuel : Slot φ → ℕ) {i : ℕ} {f : φ} {mtu : UInt32} {x : ℕ}

/-- Slot `i` reads file `f` and is at record `x`. -/
def Reads (i : ℕ) (f : φ) (mtu : UInt32) (x : ℕ) (s : Live φ) : Prop :=
  ∃ src, reading i s.mux = (some (f, src), mtu) ∧ src.At (now s.clock f) ∧ src.nextIndex = x

variable {now}

/-- It is never past the end. -/
theorem Reads.le_head {s : Live φ} (h : Reads now i f mtu x s) : x ≤ (now s.clock f).head := by
  obtain ⟨src, -, hat, rfl⟩ := h
  rw [← hat.index]
  exact hat.valid.index_le

/-! ### Rounds and polls -/

theorem mergeLoop_keeps {P : Live φ → Prop} {j : ℕ} {memberRef : UInt16}
    (h : Leads P (tick now fun files => round files j memberRef) P) (n : ℕ) :
    Leads P (mergeLoop now j memberRef n) P := by
  induction n with
  | zero => exact .pure false
  | succ n ih =>
      refine h.bind (fun y => ?_) fun _ hs => hs
      rcases y with _ | _ | _
      · exact .pure false
      · exact ih
      · exact .pure true

theorem pollSlot_keeps {P : Live φ → Prop} {j : ℕ}
    (h : ∀ memberRef, Leads P (tick now fun files => round files j memberRef) P) (batch : ℕ) :
    Leads P (pollSlot now fuel j batch) P := by
  have hone : Leads P (mergeOne now fuel j) P := by
    refine .get fun s hs => ?_
    cases s.mux.slots[j]? with
    | none => exact hs
    | some slot => exact mergeLoop_keeps (h slot.memberRef) _ s hs
  induction batch with
  | zero => exact .pure 0
  | succ b ih =>
      refine hone.bind (fun merged => ?_) fun _ hs => hs
      cases merged with
      | false => exact .pure 0
      | true => exact ih.bind (fun n => .pure (n + 1)) fun _ hs => hs

/-- What every round on these slots keeps, a poll of them does. -/
theorem pollSlots_keeps {P : Live φ → Prop} (batch : ℕ) {js : List ℕ}
    (h : ∀ j ∈ js, ∀ memberRef, Leads P (tick now fun files => round files j memberRef) P) :
    Leads P (pollSlots now fuel batch js) P := by
  induction js with
  | nil => exact .pure 0
  | cons j js ih =>
      obtain ⟨hj, hjs⟩ := List.forall_mem_cons.mp h
      refine (pollSlot_keeps fuel hj batch).bind (fun n => ?_) fun _ hs => hs
      exact (ih hjs).bind (fun k => .pure (n + k)) fun _ hs => hs

variable (hgrows : ∀ t, Relation.ReflTransGen Log.Grows (now t f) (now (t + 1) f))
include hgrows

theorem tick_reads_other {j : ℕ} (hij : j ≠ i) (memberRef : UInt16) :
    Leads (Reads now i f mtu x) (tick now fun files => round files j memberRef)
      (Reads now i f mtu x) := by
  rintro s ⟨src, hread, hat, hx⟩
  refine ⟨src, ?_, hat.grown (hgrows s.clock), hx⟩
  exact (round_reading_other (now s.clock) memberRef hij s.mux).trans hread

/-- A round on the slot itself. -/
theorem tick_reads (memberRef : UInt16) {s s' : Live φ} {r : Except MuxError (Option Bool)}
    (h : Reads now i f mtu x s)
    (hs : exec (tick now fun files => round files i memberRef) s = (r, s')) :
    (now s.clock f).get? x = none ∧ r = .ok none ∧ Reads now i f mtu x s' ∨
      ∃ a, (now s.clock f).get? x = some a ∧ Reads now i f mtu (x + 1) s' ∧
        (rejects mtu a = true ∧ r = .ok (some false) ∨
          rejects mtu a = false ∧ (r = .ok (some true) ∨ ∃ e, r = .error e)) := by
  obtain ⟨src, hread, hat, rfl⟩ := h
  obtain ⟨src', hat', hread', hcases⟩ := round_reading (now s.clock) memberRef hread hat
  cases hs
  rcases hcases with ⟨hnone, hx, hr⟩ | ⟨a, ha, hx, hr⟩
  · exact .inl ⟨hnone, hr, src', hread', hat'.grown (hgrows s.clock), hx⟩
  · exact .inr ⟨a, ha, ⟨src', hread', hat'.grown (hgrows s.clock), hx⟩, hr⟩

/-- A poll leaves the slot somewhere in its log. -/
theorem pollSlots_reads (batch : ℕ) (js : List ℕ) :
    Leads (fun s => ∃ y, Reads now i f mtu y s) (pollSlots now fuel batch js)
      fun s => ∃ y, Reads now i f mtu y s := by
  refine pollSlots_keeps fuel batch fun j _ memberRef => ?_
  rintro s ⟨y, hy⟩
  by_cases hij : j = i
  · subst hij
    rcases tick_reads hgrows memberRef hy rfl with ⟨-, -, hs⟩ | ⟨-, -, hs, -⟩
    · exact ⟨_, hs⟩
    · exact ⟨_, hs⟩
  · exact ⟨y, tick_reads_other hgrows hij memberRef s hy⟩

/-! ### Nothing to pass over -/

/-- Where nothing of the next batch is ever rejected, each call takes one at most. -/
theorem pollSlot_modest (batch : ℕ)
    (hgood : ∀ t k a, x ≤ k → k < x + batch → (now t f).get? k = some a → rejects mtu a = false) :
    Leads (Reads now i f mtu x) (pollSlot now fuel i batch)
      fun s => ∃ y ≤ x + batch, Reads now i f mtu y s := by
  induction batch generalizing x with
  | zero => exact fun s hs => ⟨x, le_rfl, hs⟩
  | succ batch ih =>
      have hone : Leads (Reads now i f mtu x) (mergeOne now fuel i)
          fun s => ∃ y, x ≤ y ∧ y ≤ x + 1 ∧ Reads now i f mtu y s := by
        refine .get fun s hs => ?_
        cases s.mux.slots[i]? with
        | none => exact ⟨x, le_rfl, Nat.le_succ x, hs⟩
        | some slot =>
            cases hn : fuel slot with
            | zero =>
                simp only [hn]
                exact ⟨x, le_rfl, Nat.le_succ x, hs⟩
            | succ n =>
                simp only [hn]
                rw [mergeLoop]
                rcases hr : exec (tick now fun files => round files i slot.memberRef) s
                  with ⟨r, s₁⟩
                rcases tick_reads hgrows slot.memberRef hs hr with
                  ⟨-, rfl, hs₁⟩ | ⟨a, ha, hs₁, ⟨hbad, -⟩ | ⟨-, rfl | ⟨e, rfl⟩⟩⟩
                · rw [exec_bind_ok hr]
                  exact ⟨x, le_rfl, Nat.le_succ x, hs₁⟩
                · rw [hgood _ x a le_rfl (by omega) ha] at hbad
                  cases hbad
                · rw [exec_bind_ok hr]
                  exact ⟨x + 1, Nat.le_succ x, le_rfl, hs₁⟩
                · rw [exec_bind_error hr]
                  exact ⟨x + 1, Nat.le_succ x, le_rfl, hs₁⟩
      refine hone.bind (fun merged => ?_) fun s ⟨y, _, hy, hs⟩ => ⟨y, by omega, hs⟩
      rintro s ⟨y, hxy, hy, hs⟩
      cases merged with
      | false => exact ⟨y, by omega, hs⟩
      | true =>
          have hrest := ih (x := y) fun t k a hk hk' => hgood t k a (by omega) (by omega)
          obtain ⟨z, hz, hs'⟩ :=
            hrest.bind (fun n => Leads.pure (n + 1)) (fun _ h => h) s hs
          exact ⟨z, by omega, hs'⟩

theorem pollSlots_modest (batch : ℕ) {js : List ℕ} (hnodup : js.Nodup)
    (hgood : ∀ t k a, x ≤ k → k < x + batch → (now t f).get? k = some a → rejects mtu a = false) :
    Leads (Reads now i f mtu x) (pollSlots now fuel batch js)
      fun s => ∃ y ≤ x + batch, Reads now i f mtu y s := by
  induction js with
  | nil => exact fun s hs => ⟨x, Nat.le_add_right x batch, hs⟩
  | cons j js ih =>
      obtain ⟨hj, hjs⟩ := List.nodup_cons.mp hnodup
      by_cases hij : j = i
      · subst hij
        refine (pollSlot_modest fuel hgrows batch hgood).bind (fun n => ?_) fun _ hs => hs
        rintro s ⟨y, hy, hs⟩
        have hrest : Leads (Reads now j f mtu y) (pollSlots now fuel batch js)
            (Reads now j f mtu y) :=
          pollSlots_keeps fuel batch fun j' hj' =>
            tick_reads_other hgrows fun (h : j' = j) => hj (h ▸ hj')
        exact ⟨y, hy, hrest.bind (fun k => Leads.pure (n + k)) (fun _ h => h) s hs⟩
      · refine (pollSlot_keeps fuel (tick_reads_other hgrows hij) batch).bind (fun n => ?_)
          fun s hs => ⟨x, Nat.le_add_right x batch, hs⟩
        exact (ih hjs).bind (fun k => .pure (n + k)) fun _ hs => hs

end Run

/-! ### Files that stand still, to the record -/

section Exact

variable {files : φ → Log} {i : ℕ} {f : φ} {mtu : UInt32} {x : ℕ} {s s' : Live φ}

theorem still (t : ℕ) :
    Relation.ReflTransGen Log.Grows ((fun _ => files : ℕ → φ → Log) t f)
      ((fun _ => files : ℕ → φ → Log) (t + 1) f) := .refl

/-- One call: it takes what it passes over, and the record it merges if there is one. -/
theorem mergeLoop_exact (memberRef : UInt16) {merged : Bool} {n : ℕ}
    (hn : (ahead (files f) x).length < n) (h : Reads (fun _ => files) i f mtu x s)
    (hs : exec (mergeLoop (fun _ => files) i memberRef n) s = (.ok merged, s')) :
    ∃ k, Reads (fun _ => files) i f mtu (x + k) s' ∧ ∀ b,
      taken (rejects mtu) (b + 1) (ahead (files f) x) =
        k + if merged then taken (rejects mtu) b (ahead (files f) (x + k)) else 0 := by
  induction n generalizing x s with
  | zero => omega
  | succ n ih =>
      rw [mergeLoop] at hs
      rcases hr : exec (tick (fun _ => files) fun files => round files i memberRef) s with ⟨r, s₁⟩
      rcases tick_reads still memberRef h hr with
        ⟨hnone, rfl, hs₁⟩ | ⟨a, ha, hs₁, ⟨hbad, rfl⟩ | ⟨hgood, rfl | ⟨e, rfl⟩⟩⟩
      · rw [exec_bind_ok hr] at hs
        cases hs
        obtain ⟨src, -, hat, rfl⟩ := h
        refine ⟨0, hs₁, fun b => ?_⟩
        rw [ahead_eq_nil hat hnone]
        rfl
      · rw [exec_bind_ok hr] at hs
        rw [ahead_eq_cons ha, List.length_cons] at hn
        obtain ⟨k, hk, htaken⟩ := ih (by omega) hs₁ hs
        refine ⟨k + 1, ?_, fun b => ?_⟩
        · rwa [show x + (k + 1) = x + 1 + k by omega]
        · rw [ahead_eq_cons ha, taken, if_pos hbad, htaken b,
            show x + (k + 1) = x + 1 + k by omega]
          omega
      · rw [exec_bind_ok hr] at hs
        cases hs
        refine ⟨1, hs₁, fun b => ?_⟩
        rw [ahead_eq_cons ha, taken, if_neg (by simp [hgood])]
        rfl
      · rw [exec_bind_error hr] at hs
        cases hs

theorem pollSlot_exact {batch n : ℕ} (h : Reads (fun _ => files) i f mtu x s)
    (hs : exec (pollSlot (fun _ => files) (Slot.fuel files) i batch) s = (.ok n, s')) :
    Reads (fun _ => files) i f mtu (x + taken (rejects mtu) batch (ahead (files f) x)) s' := by
  induction batch generalizing x s n with
  | zero =>
      cases hs
      simpa using h
  | succ batch ih =>
      rw [pollSlot] at hs
      rcases hone : exec (mergeOne (fun _ => files) (Slot.fuel files) i) s with ⟨e | merged, s₁⟩
      · rw [exec_bind_error hone] at hs
        cases hs
      rw [exec_bind_ok hone] at hs
      have hloop : ∃ k, Reads (fun _ => files) i f mtu (x + k) s₁ ∧ ∀ b,
          taken (rejects mtu) (b + 1) (ahead (files f) x) =
            k + if merged then taken (rejects mtu) b (ahead (files f) (x + k)) else 0 := by
        obtain ⟨src, hread, hat, hx⟩ := h
        obtain ⟨slot, hslot, hfs⟩ := Option.map_eq_some_iff.mp (Prod.mk.inj hread).1
        obtain ⟨rfl, rfl⟩ := Prod.mk.inj hfs
        have hlen : _ = (files slot.file).head := length_ahead hat
        rw [mergeOne, exec_bind_ok (exec_get s), hslot] at hone
        refine mergeLoop_exact slot.memberRef ?_ ⟨slot.source, hread, hat, hx⟩ hone
        rw [← hx, Slot.fuel]
        omega
      obtain ⟨k, hk, htaken⟩ := hloop
      rw [htaken batch]
      cases merged with
      | false =>
          cases hs
          exact hk
      | true =>
          rcases hrest : exec (pollSlot (fun _ => files) (Slot.fuel files) i batch) s₁
            with ⟨e | n', s₂⟩
          · rw [if_pos rfl, exec_bind_error hrest] at hs
            cases hs
          · rw [if_pos rfl, exec_bind_ok hrest] at hs
            cases hs
            rw [if_pos rfl, ← Nat.add_assoc]
            exact ih hk hrest

theorem pollSlots_exact {batch n : ℕ} {js : List ℕ} (hnodup : js.Nodup)
    (h : Reads (fun _ => files) i f mtu x s)
    (hs : exec (pollSlots (fun _ => files) (Slot.fuel files) batch js) s = (.ok n, s')) :
    Reads (fun _ => files) i f mtu
      (if i ∈ js then x + taken (rejects mtu) batch (ahead (files f) x) else x) s' := by
  induction js generalizing s n with
  | nil =>
      cases hs
      exact h
  | cons j js ih =>
      obtain ⟨hj, hjs⟩ := List.nodup_cons.mp hnodup
      rw [pollSlots] at hs
      rcases hone : exec (pollSlot (fun _ => files) (Slot.fuel files) j batch) s with ⟨e | k, s₁⟩
      · rw [exec_bind_error hone] at hs
        cases hs
      rw [exec_bind_ok hone] at hs
      rcases hrest : exec (pollSlots (fun _ => files) (Slot.fuel files) batch js) s₁
        with ⟨e | k', s₂⟩
      · rw [exec_bind_error hrest] at hs
        cases hs
      rw [exec_bind_ok hrest] at hs
      cases hs
      by_cases hij : j = i
      · subst hij
        have hslot := pollSlot_exact h hone
        have hkeeps := pollSlots_keeps (Slot.fuel files) batch (fun j' hj' =>
          tick_reads_other still fun (h : j' = j) => hj (h ▸ hj')) s₁ hslot
        rw [hrest] at hkeeps
        simpa using hkeeps
      · have hkeeps := pollSlot_keeps (Slot.fuel files) (tick_reads_other still hij) batch s h
        rw [hone] at hkeeps
        have hall := ih hjs hkeeps hrest
        simpa [Ne.symm hij] using hall

end Exact

/-! ### Growing logs -/

section Growth

variable {now : ℕ → φ → Log} {f : φ}
  (hgrows : ∀ t, Relation.ReflTransGen Log.Grows (now t f) (now (t + 1) f))
include hgrows

theorem grown {t t' : ℕ} (h : t ≤ t') : Relation.ReflTransGen Log.Grows (now t f) (now t' f) := by
  induction t', h using Nat.le_induction with
  | base => exact .refl
  | succ t' _ ih => exact ih.trans (hgrows t')

/-- What is at an index is there for good. -/
theorem get?_unique {t t' k : ℕ} {a b : Record} (ha : (now t f).get? k = some a)
    (hb : (now t' f).get? k = some b) : a = b := by
  have hstays : ∀ {l l' : Log} {r : Record}, l.get? k = some r →
      Relation.ReflTransGen Log.Grows l l' → l'.get? k = some r := by
    intro l l' r hr hg
    exact RecordFrame.Of.grown (f := ⟨k, r.msgType, r.userMeta, false, r.payload⟩) hr hg
  rcases le_total t t' with h | h
  · rw [hstays ha (grown hgrows h)] at hb
    exact Option.some.inj hb
  · rw [hstays hb (grown hgrows h)] at ha
    exact (Option.some.inj ha).symm

/-- If there is ever more than a batch ahead, nothing of the next batch is ever rejected. -/
theorem good_of_modest {bad : Record → Bool} {batch t' : ℕ} {src : ReplicationSource}
    (hat : src.At (now t' f)) (hmodest : Modest bad batch (ahead (now t' f) src.nextIndex))
    (hlong : batch < (ahead (now t' f) src.nextIndex).length) (t k : ℕ) (a : Record)
    (hk : src.nextIndex ≤ k) (hk' : k < src.nextIndex + batch)
    (ha : (now t f).get? k = some a) : bad a = false := by
  have hgood := hmodest.resolve_left (by omega)
  have hge : (now t' f).genesis ≤ src.nextIndex := by
    rw [← hat.index, SegLog.Reader.index, SegLog.segBase]
    omega
  have hlen := length_ahead hat
  obtain ⟨b, hb⟩ := SegLog.get?_isSome_iff.mpr (⟨by omega, by omega⟩ :
    (now t' f).genesis ≤ k ∧ k < (now t' f).head)
  rw [get?_unique hgrows ha hb]
  refine hgood b (List.mem_of_getElem? (i := k - src.nextIndex) ?_)
  rw [List.getElem?_take_of_lt (by omega), ahead, List.getElem?_drop]
  rw [SegLog.get?, if_pos (by omega)] at hb
  rwa [show src.nextIndex - (now t' f).genesis + (k - src.nextIndex) = k - (now t' f).genesis by
    omega]

end Growth

/-- **How much a poll takes of a member.** However the members' logs grow while the poll is
running, whether it returns or fails, and however long the loops inside it are let run: of
a member that at every moment has no more than a batch ahead, or nothing to pass over in
the next batch, it takes at most a batch. And where the logs stand still and no write
fails, it takes at most a batch if and only if that is so (or the mux is retired). -/
theorem poll_takes_batch {m : Mux φ} {i : ℕ} {slot : Slot φ} (hslot : m.slots[i]? = some slot) :
    (∀ (now : ℕ → φ → Log) (fuel : Slot φ → ℕ) (slot' : Slot φ),
      slot.source.At (now 0 slot.file) →
      (∀ t, Relation.ReflTransGen Log.Grows (now t slot.file) (now (t + 1) slot.file)) →
      (exec (poll now fuel) ⟨m, 0⟩).2.mux.slots[i]? = some slot' →
      (∀ t, Modest (rejects m.geometry.mtu) m.maxBatchPerMember
        (ahead (now t slot.file) slot.source.nextIndex)) →
      slot'.source.nextIndex ≤ slot.source.nextIndex + m.maxBatchPerMember) ∧
    ∀ (files : φ → Log) (n : ℕ) (m' : Mux φ) (slot' : Slot φ),
      slot.source.At (files slot.file) → exec (Mux.poll files) m = (.ok n, m') →
      m'.slots[i]? = some slot' →
      (slot'.source.nextIndex ≤ slot.source.nextIndex + m.maxBatchPerMember ↔
        m.finished = true ∨ Modest (rejects m.geometry.mtu) m.maxBatchPerMember
          (ahead (files slot.file) slot.source.nextIndex)) := by
  have hread : reading i m = (some (slot.file, slot.source), m.geometry.mtu) := by
    rw [reading, hslot]
    rfl
  have hindex : ∀ {now : ℕ → φ → Log} {y : ℕ} {s : Live φ} {slot' : Slot φ},
      Reads now i slot.file m.geometry.mtu y s → s.mux.slots[i]? = some slot' →
        slot'.source.nextIndex = y := by
    rintro now y s slot' ⟨src, hsrc, -, rfl⟩ hs'
    rw [reading, hs'] at hsrc
    have hsource := congrArg Prod.snd (Option.some.inj (congrArg Prod.fst hsrc))
    exact congrArg ReplicationSource.nextIndex hsource
  constructor
  · intro now fuel slot' hat hgrows hs' hmodest
    have hstart : Reads now i slot.file m.geometry.mtu slot.source.nextIndex ⟨m, 0⟩ :=
      ⟨slot.source, hread, hat, rfl⟩
    have hats : ∀ t, slot.source.At (now t slot.file) :=
      fun t => hat.grown (grown hgrows (Nat.zero_le t))
    unfold poll at hs'
    rw [exec_bind_ok (exec_get _)] at hs'
    split at hs'
    · rw [hindex hstart hs']
      omega
    by_cases hlong : ∃ t, m.maxBatchPerMember <
        (ahead (now t slot.file) slot.source.nextIndex).length
    · obtain ⟨t', ht'⟩ := hlong
      obtain ⟨y, hy, hend⟩ := pollSlots_modest fuel hgrows m.maxBatchPerMember
        List.nodup_range (good_of_modest hgrows (hats t') (hmodest t') ht') _ hstart
      rw [hindex hend hs']
      exact hy
    · -- there is no more than that at any time
      obtain ⟨y, hend⟩ := pollSlots_reads fuel hgrows m.maxBatchPerMember
        (List.range m.slots.length) _ ⟨_, hstart⟩
      rw [hindex hend hs']
      have hhead := hend.le_head
      rw [← length_ahead (hats _)] at hhead
      have hshort := not_exists.mp hlong
      have := hshort (exec (pollSlots now fuel m.maxBatchPerMember
        (List.range m.slots.length)) ⟨m, 0⟩).2.clock
      omega
  · intro files n m' slot' hat hpoll hs'
    have hstart : Reads (fun _ => files) i slot.file m.geometry.mtu slot.source.nextIndex
        ⟨m, 0⟩ := ⟨slot.source, hread, hat, rfl⟩
    obtain ⟨hok, hmux⟩ := poll_still files ⟨m, 0⟩
    rw [hpoll] at hok hmux
    rw [← show _ = m' from hmux] at hs'
    unfold poll at hok hs'
    rw [exec_bind_ok (exec_get _)] at hok hs'
    split at hs'
    · rename_i hfin
      rw [hindex hstart hs']
      exact iff_of_true (by omega) (.inl hfin)
    · rename_i hfin
      rw [if_neg hfin] at hok
      have hi : i ∈ List.range m.slots.length :=
        List.mem_range.mpr (List.getElem?_eq_some_iff.mp hslot).1
      have hend := pollSlots_exact List.nodup_range hstart (Prod.ext hok rfl)
      rw [if_pos hi] at hend
      rw [hindex hend hs', Nat.add_le_add_iff_left, taken_le_iff]
      exact (or_iff_right hfin).symm

end Live

/-! ## The condition is needed -/

/-- The mux of a new topic, merging one record at a time, with one member. -/
def attachOne (files : Unit → Log) : Option (Mux Unit) :=
  («open» none "topic" ⟨4096, 0, 0, 0⟩ 1).toOption.map fun m =>
    (exec (addMember files "a" 0 (some ())) m).2

/-- A member that writes a record every time somebody looks. -/
def growing : ℕ → Unit → Log := fun t _ => .ofRecords "a" 0 (List.replicate (t + 1) ⟨1, 0, [7]⟩)

theorem growing_grows (t : ℕ) :
    Relation.ReflTransGen Log.Grows (growing t ()) (growing (t + 1) ()) := by
  refine .single ⟨?_, rfl, rfl, rfl⟩
  have happend : (growing (t + 1) ()).toSegLog = (growing t ()).toSegLog.append ⟨1, 0, [7]⟩ := by
    simp only [growing, Log.ofRecords, SegLog.append, ← List.replicate_succ']
  rw [happend]
  exact .append _ _

/-- One record of it is taken, although there are two by the end of the poll. -/
theorem Live.poll_takes_batch_growing :
    ∃ (m : Mux Unit) (slot slot' : Slot Unit), attachOne (growing 0) = some m ∧
      m.slots[0]? = some slot ∧
      (exec (Live.poll growing fun _ => 5) ⟨m, 0⟩).2.mux.slots[0]? = some slot' ∧
      slot'.source.nextIndex ≤ slot.source.nextIndex + m.maxBatchPerMember := by
  have hrun : (attachOne (growing 0)).any (fun m => m.slots[0]?.any fun slot =>
      (exec (Live.poll growing fun _ => 5) ⟨m, 0⟩).2.mux.slots[0]?.any fun _ =>
        decide (slot.source = (ReplicationSource.open (growing 0 ())).1 ∧
          m.geometry.mtu = 0)) = true := by
    decide +kernel
  obtain ⟨m, hm, hrun⟩ := (Option.any_eq_true _ _).mp hrun
  obtain ⟨slot, hs, hrun⟩ := (Option.any_eq_true _ _).mp hrun
  obtain ⟨slot', hs', hrun⟩ := (Option.any_eq_true _ _).mp hrun
  obtain ⟨hsource, hmtu⟩ := of_decide_eq_true hrun
  refine ⟨m, slot, slot', hm, hs, hs', (Live.poll_takes_batch hs).1 growing (fun _ => 5) slot'
    (hsource ▸ ReplicationSource.open_at _) growing_grows hs' fun t => .inr ?_⟩
  intro r hr
  have hmem : r ∈ List.replicate (t + 1) (⟨1, 0, [7]⟩ : Record) :=
    List.mem_of_mem_drop (List.mem_of_mem_take hr)
  rw [List.eq_of_mem_replicate hmem, hmtu]
  decide

/-- A member all of whose records are of a reserved type. -/
def intruder : Unit → Log := fun _ =>
  .ofRecords "a" 0 (List.replicate 3 ⟨MSG_TYPE_SLOT_TABLE, 0, []⟩)

/-- **A poll with a batch of one takes three records**: passing over a record
does not count, and `merge_one` passes over as many as there are. -/
theorem poll_exceeds_batch :
    ∃ m : Mux Unit, attachOne intruder = some m ∧ m.maxBatchPerMember = 1 ∧
      (m.slots.map fun s => s.source.nextIndex) = [0] ∧
      ((exec (poll intruder) m).2.slots.map fun s => s.source.nextIndex) = [3] := by
  have hrun : (attachOne intruder).any (fun m => decide (m.maxBatchPerMember = 1 ∧
      (m.slots.map fun s => s.source.nextIndex) = [0] ∧
      ((exec (poll intruder) m).2.slots.map fun s => s.source.nextIndex) = [3])) = true := by
    decide +kernel
  obtain ⟨m, hm, hrun⟩ := (Option.any_eq_true _ _).mp hrun
  exact ⟨m, hm, of_decide_eq_true hrun⟩

end Mux

end XchannelNet
