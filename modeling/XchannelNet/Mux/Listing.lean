import XchannelNet.Mux.Segments

/-!
# Listing — who is still a member, as the log has it

A member joins a topic with the slot table that lists it, and leaves with a
record that closes it. Who is to be attached again after a restart is read off
the last slot table alone. While a mux runs, whoever has joined and not left
is attached, except for those a restart has not come to yet; and a mux whose
slots the last table lists can be killed at any time.
-/

namespace XchannelNet

namespace Mux

/-! ## Reading the log -/

/-- The table in force and whether `k` is in, after one more record. -/
def stillAfter (k : Incarnation) (s : Option SlotTable × Bool) (r : Record) :
    Option SlotTable × Bool :=
  (tableAfter s.1 r,
    match event r with
    | .ok (.table rows) => s.2 || rows.any fun e => e.member = k
    | .ok (.closed memberRef _) => s.2 && s.1.bind (·.member? memberRef) ≠ some k
    | _ => s.2)

def Emission.stillAfter (k : Incarnation) (still : Bool) : Emission → Bool
  | .slotTable t => still || t.members.any fun e => e.member = k
  | .memberClosed e => still && e.member ≠ k
  | _ => still

/-- The same of emissions. -/
def joined (es : List Emission) (k : Incarnation) : Bool :=
  es.foldl (Emission.stillAfter k) false

theorem joined_concat (es : List Emission) (e : Emission) (k : Incarnation) :
    joined (es ++ [e]) k = e.stillAfter k (joined es k) := by
  simp [joined]

theorem Describes.append {p q : List Emission} (hp : Describes p) (hq : Describes q) :
    Describes (p ++ q) := by
  intro a e b x hsplit hx
  rcases List.append_eq_append_iff.mp hsplit with ⟨a', rfl, hq'⟩ | ⟨c, hp', hc⟩
  · obtain ⟨t, ht, hm⟩ := hq a' e b x hq' hx
    exact ⟨t, latest_append p ht, hm⟩
  · cases c with
    | nil =>
        rw [List.append_nil] at hp'
        rw [List.nil_append] at hc
        obtain ⟨t, ht, hm⟩ := hq [] e b x hc.symm hx
        cases ht
    | cons e' c =>
        cases hc
        exact hp a e c x hp' hx

/-- Whoever has joined and not left is attached, or is one of `late`. -/
def Covered (late : Incarnation → Prop) (l : Ledger) : Prop :=
  ∀ k, joined l.emitted k = true → k ∈ l.members ∨ late k

/-- Whoever has joined and not left is in the last table. -/
def Listed (es : List Emission) : Prop :=
  ∀ k, joined es k = true → ∃ t, latest es = some t ∧ k ∈ t.members.map SlotEntry.member

namespace Covered

variable {late : Incarnation → Prop} {l l' : Ledger}

theorem emit (h : Covered late l) {e : Emission}
    (he : ∀ k, e.stillAfter k (joined l.emitted k) = true → joined l.emitted k = true ∨
      k ∈ l.members) : Covered late (l.emit e) := by
  intro k hk
  have hk' : joined (l.emitted ++ [e]) k = true := hk
  rw [joined_concat] at hk'
  rcases he k hk' with hj | hm
  · exact h k hj
  · exact .inl hm

theorem table (h : Covered late l) : Covered late (l.emit l.table) := by
  refine h.emit fun k hk => ?_
  rcases Bool.or_eq_true_iff.mp hk with hj | hm
  · exact .inl hj
  · obtain ⟨e, he, hek⟩ := List.any_eq_true.mp hm
    exact .inr (List.mem_map.mpr ⟨e, he, of_decide_eq_true hek⟩)

theorem congr (h : Covered late l) (he : l'.emitted = l.emitted) (hm : l.members ⊆ l'.members) :
    Covered late l' := by
  intro k hk
  rw [he] at hk
  exact (h k hk).imp (fun hk => hm hk) id

/-- Dropping the slot of a member that was just closed. -/
theorem erase (h : Covered late l) {i : ℕ} {e : SlotEntry} {before : List Emission}
    (he : l.slots[i]? = some e) (hclosed : l.emitted = before ++ [.memberClosed e]) :
    Covered late (l.erase i) := by
  intro k hk
  have hk' : joined l.emitted k = true := hk
  refine (h k hk').imp (fun hmem => ?_) id
  rw [hclosed, joined_concat] at hk'
  have hne : e.member ≠ k := of_decide_eq_true (Bool.and_eq_true_iff.mp hk').2
  obtain ⟨x, hx, rfl⟩ := List.mem_map.mp hmem
  obtain ⟨j, hj⟩ := List.getElem?_of_mem hx
  refine List.mem_map_of_mem (List.mem_eraseIdx_iff_getElem?.mpr ⟨j, ?_, hj⟩)
  rintro rfl
  rw [hj, Option.some.injEq] at he
  exact hne (he ▸ rfl)

theorem push (h : Covered late l) (e : SlotEntry) : Covered late (l.push e) := by
  refine h.congr rfl ?_
  show l.members ⊆ (l.slots ++ [e]).map SlotEntry.member
  rw [List.map_append]
  exact List.subset_append_left _ _

theorem act (h : Covered late l) (ha : Ledger.Act l l') : Covered late l' := by
  cases ha with
  | pass he cursor =>
      exact h.congr rfl (Ledger.members_advance he cursor ▸ List.Subset.refl _)
  | @merge i e f he hrej cursor =>
      have h' : Covered late (l.advance i e cursor) :=
        h.congr rfl (Ledger.members_advance he cursor ▸ List.Subset.refl _)
      exact h'.emit fun k hk => .inl hk
  | refresh he => exact h.table
  | roll he k => exact (h.congr rfl (List.Subset.refl _) : Covered late (l.roll k)).table
  | bump hf hspace => exact h.congr rfl (List.Subset.refl _)
  | attach he => exact (h.push _).table
  | gap he a b => exact h.emit fun k hk => .inl hk
  | regressed he a b => exact h.emit fun k hk => .inl hk
  | closing he => exact h.emit fun k hk => .inl (Bool.and_eq_true_iff.mp hk).1
  | detach he hclosed => exact (h.erase he hclosed).table

theorem step (h : Covered late l) (hs : Ledger.Step l l') : Covered late l' := by
  cases hs with
  | act ha => exact h.act ha
  | terminate hf hs =>
      have h' : Covered late (l.emit .terminal) := h.emit fun k hk => .inl hk
      exact h'.congr rfl (List.Subset.refl _)

theorem steps (h : Covered late l) (hs : Relation.ReflTransGen Ledger.Step l l') :
    Covered late l' := by
  induction hs with
  | refl => exact h
  | tail _ hlast ih => exact ih.step hlast

theorem cut (h : Covered late l) (hc : Ledger.Cut l l') : Covered late l' := by
  cases hc with
  | roll he k => exact h.congr rfl (List.Subset.refl _)
  | attach he => exact h.push _
  | detach he hclosed => exact h.erase he hclosed

/-- With nobody late, a tidy ledger lists everybody. -/
theorem listed (h : Covered (fun _ => False) l) (ht : Tidy l) : Listed l.emitted := by
  intro k hk
  have hmem := (h k hk).resolve_right id
  obtain ⟨closed, current, hp, hnil | ⟨t, hlatest, -, hseats⟩⟩ := ht
  · rw [Ledger.members, hnil] at hmem
    cases hmem
  · refine ⟨t, hp.emitted ▸ latest_append _ hlatest, ?_⟩
    have hmembers := congrArg (List.map Prod.snd) hseats
    rw [List.map_map, List.map_map] at hmembers
    have ht : t.members.map SlotEntry.member = l.slots.map SlotEntry.member := hmembers
    rw [ht]
    exact hmem

/-- What an operation leaves on record, whether it was broken off or not. -/
theorem turn {φ : Type} {a : Action φ} (h : Covered late l) (ht : l.Turn a l') (ha : a ≠ .open) :
    Covered late l' := by
  cases ht with
  | grow => exact h
  | «open» => exact absurd rfl ha
  | op hs => exact h.steps hs
  | cut hs hc => exact (h.steps hs).cut hc
  | kill => exact h

/-- A process that ends with nobody late leaves everybody listed. -/
theorem listed_turn {φ : Type} {a : Action φ} (h : Covered (fun _ => False) l) (hl : l.Sound)
    (htidy : Tidy l) (ht : l.Turn a l') (ha : a ≠ .open) : Listed l'.emitted := by
  cases ht with
  | grow => exact h.listed htidy
  | «open» => exact absurd rfl ha
  | op hs => exact (h.steps hs).listed (htidy.steps hl hs)
  | cut hs hc =>
      rw [hc.emitted]
      exact (h.steps hs).listed (htidy.steps hl hs)
  | kill => exact h.listed htidy

end Covered

theorem Ledger.Turn.emitted {φ : Type} {l l' : Ledger} {a : Action φ} (h : l.Turn a l') :
    l.emitted <+: l'.emitted := by
  cases h with
  | grow => exact List.prefix_refl _
  | «open» => exact List.prefix_refl _
  | op hs => exact steps_emitted hs
  | cut hs hc =>
      rw [hc.emitted]
      exact steps_emitted hs
  | kill => exact List.prefix_refl _

end Mux

end XchannelNet
