import Mathlib.Data.List.TakeWhile
import Mathlib.Order.Lattice

/-!
# Sequence — lists in order, and lists changed in one place

A scan of a range of an ordered list finds everything that matches, if what
matches has no holes; the strings that start with a given one are such a range.
A list in which one place is changed keeps what holds between its elements, if
the change does.
-/

namespace Sequence

variable {α : Type*}

/-! ## Changing one place -/

theorem mem_modify {f : α → α} {l : List α} {i : ℕ} {b : α} (h : b ∈ l.modify i f) :
    ∃ c ∈ l, b = c ∨ b = f c := by
  obtain ⟨j, hj⟩ := List.mem_iff_getElem?.mp h
  rw [List.getElem?_modify] at hj
  obtain ⟨c, hc, rfl⟩ := Option.map_eq_some_iff.mp hj
  refine ⟨c, List.mem_of_getElem? hc, ?_⟩
  split
  · exact .inr rfl
  · exact .inl rfl

theorem forall_mem_set {P : α → Prop} {l : List α} (h : ∀ x ∈ l, P x) (i : ℕ) {a : α} (ha : P a) :
    ∀ x ∈ l.set i a, P x := by
  intro x hx
  rcases List.mem_or_eq_of_mem_set hx with hx | rfl
  · exact h x hx
  · exact ha

theorem forall_mem_concat {P : α → Prop} {l : List α} (h : ∀ x ∈ l, P x) {a : α} (ha : P a) :
    ∀ x ∈ l ++ [a], P x :=
  List.forall_mem_append.mpr ⟨h, List.forall_mem_singleton.mpr ha⟩

theorem pairwise_modify {R : α → α → Prop} {f : α → α} {l : List α} (i : ℕ)
    (h : l.Pairwise R) (hl : ∀ a b, R a b → R (f a) b) (hr : ∀ a b, R a b → R a (f b)) :
    (l.modify i f).Pairwise R := by
  induction l generalizing i with
  | nil => simp
  | cons a l ih =>
      obtain ⟨ha, hp⟩ := List.pairwise_cons.mp h
      cases i with
      | zero => exact List.pairwise_cons.mpr ⟨fun b hb => hl a b (ha b hb), hp⟩
      | succ i =>
          rw [List.modify_succ_cons]
          refine List.pairwise_cons.mpr ⟨fun b hb => ?_, ih i hp⟩
          obtain ⟨c, hc, rfl | rfl⟩ := mem_modify hb
          · exact ha b hc
          · exact hr a c (ha c hc)

section Keys

variable {β : Type*} {f : α → β} {l : List α}

theorem nodup_map_concat {a : α} (h : (l.map f).Nodup) (ha : ∀ x ∈ l, f x ≠ f a) :
    ((l ++ [a]).map f).Nodup := by
  rw [List.map_append, List.map_singleton, List.nodup_append]
  refine ⟨h, by simp, fun b hb c hc hbc => ?_⟩
  obtain ⟨x, hx, rfl⟩ := List.mem_map.mp hb
  exact ha x hx (hbc.trans (List.mem_singleton.mp hc))

/-- What has its own key has its own place. -/
theorem index_unique (h : (l.map f).Nodup) {i j : ℕ} {a b : α} (hi : l[i]? = some a)
    (hj : l[j]? = some b) (hf : f a = f b) : i = j := by
  refine (List.getElem?_inj ?_ h).mp ?_
  · rw [List.length_map]
    exact (List.getElem?_eq_some_iff.mp hi).1
  · rw [List.getElem?_map, List.getElem?_map, hi, hj, Option.map_some, Option.map_some, hf]

/-- A list in which one element was replaced: it, and those of other keys. -/
theorem mem_set_of_nodup (h : (l.map f).Nodup) {i : ℕ} {a b x : α} (hi : l[i]? = some a)
    (hx : x ∈ l.set i b) : x = b ∨ x ∈ l ∧ f x ≠ f a := by
  obtain ⟨j, hj⟩ := List.getElem?_of_mem hx
  rw [List.getElem?_set] at hj
  split at hj
  · split at hj
    · exact .inl (Option.some.inj hj).symm
    · cases hj
  · rename_i hij
    exact .inr ⟨List.mem_of_getElem? hj, fun hf => hij (index_unique h hi hj hf.symm)⟩

/-- A list from which one element was taken: those of other keys. -/
theorem ne_of_mem_eraseIdx (h : (l.map f).Nodup) {i : ℕ} {a x : α} (hi : l[i]? = some a)
    (hx : x ∈ l.eraseIdx i) : f x ≠ f a := by
  obtain ⟨j, hne, hj⟩ := List.mem_eraseIdx_iff_getElem?.mp hx
  exact fun hf => hne (index_unique h hj hi hf)

end Keys

/-! ## Scanning a range -/

/-- In a list in order, stopping at the first that does not match finds
everything that matches, if what matches has no holes. -/
theorem takeWhile_eq_filter {R : α → α → Prop} {p : α → Bool} {l : List α} (h : l.Pairwise R)
    (hconvex : ∀ a ∈ l, ∀ b ∈ l, R a b → p b = true → p a = true) :
    l.takeWhile p = l.filter p := by
  induction l with
  | nil => rfl
  | cons a l ih =>
      obtain ⟨ha, hp⟩ := List.pairwise_cons.mp h
      have hrest := ih hp fun x hx y hy =>
        hconvex x (List.mem_cons_of_mem a hx) y (List.mem_cons_of_mem a hy)
      cases hpa : p a with
      | true => rw [List.takeWhile_cons_of_pos hpa, List.filter_cons_of_pos hpa, hrest]
      | false =>
          have hnone : l.filter p = [] := by
            rw [List.filter_eq_nil_iff]
            intro b hb hpb
            have hpa' := hconvex a List.mem_cons_self b (List.mem_cons_of_mem a hb) (ha b hb) hpb
            rw [hpa] at hpa'
            cases hpa'
          rw [List.takeWhile_cons_of_neg (by simp [hpa]), List.filter_cons_of_neg (by simp [hpa]),
            hnone]

/-- A scan that starts at the first that is not below. -/
theorem takeWhile_dropWhile_eq_filter {R : α → α → Prop} {below p : α → Bool} {l : List α}
    (h : l.Pairwise R) (hdown : ∀ a b, R a b → below b = true → below a = true)
    (hbelow : ∀ a, p a = true → below a = false)
    (hconvex : ∀ a b, below a = false → R a b → p b = true → p a = true) :
    (l.dropWhile below).takeWhile p = l.filter p := by
  induction l with
  | nil => rfl
  | cons a l ih =>
      obtain ⟨ha, hp⟩ := List.pairwise_cons.mp h
      cases hb : below a with
      | true =>
          have hpa : p a = false := by
            cases hpa : p a with
            | false => rfl
            | true =>
                rw [hbelow a hpa] at hb
                cases hb
          rw [List.dropWhile_cons_of_pos hb, List.filter_cons_of_neg (by simp [hpa])]
          exact ih hp
      | false =>
          have habove : ∀ x ∈ a :: l, below x = false := by
            intro x hx
            rcases List.mem_cons.mp hx with rfl | hx
            · exact hb
            · cases hbx : below x with
              | false => rfl
              | true =>
                  rw [hdown a x (ha x hx) hbx] at hb
                  cases hb
          rw [List.dropWhile_cons_of_neg (by simp [hb])]
          exact takeWhile_eq_filter h fun x hx y _ => hconvex x y (habove x hx)

/-- Where a scan found everything that matches, nothing past its end does. -/
theorem not_of_mem_dropWhile {below p : α → Bool} {l : List α}
    (h : (l.dropWhile below).takeWhile p = l.filter p) {a : α}
    (ha : a ∈ (l.dropWhile below).dropWhile p) : ¬ p a = true := by
  have hall : ((l.dropWhile below).takeWhile p).filter p = (l.dropWhile below).takeWhile p :=
    List.filter_eq_self.mpr fun _ => List.mem_takeWhile_imp
  have hsplit : l.filter p = (l.takeWhile below).filter p ++
      ((l.dropWhile below).takeWhile p ++ ((l.dropWhile below).dropWhile p).filter p) := by
    conv_lhs => rw [← List.takeWhile_append_dropWhile (p := below) (l := l), List.filter_append,
      ← List.takeWhile_append_dropWhile (p := p) (l := l.dropWhile below), List.filter_append, hall]
  have hlen := congrArg List.length (h.trans hsplit)
  rw [List.length_append, List.length_append] at hlen
  have hnil : ((l.dropWhile below).dropWhile p).filter p = [] :=
    List.length_eq_zero_iff.mp (by omega)
  exact List.filter_eq_nil_iff.mp hnil a ha

variable [LinearOrder α]

/-- What starts with `p` is not below `p`. -/
theorem not_lt_of_isPrefix {p a : List α} (h : p <+: a) : ¬ a < p := by
  induction p generalizing a with
  | nil => exact List.not_lt_nil a
  | cons x p ih =>
      obtain ⟨t, rfl⟩ := h
      rw [List.cons_append, List.cons_lt_cons_iff]
      rintro (hlt | ⟨-, hlt⟩)
      · exact lt_irrefl x hlt
      · exact ih (List.prefix_append p t) hlt

/-- What lies between `p` and something that starts with `p` starts with `p`. -/
theorem isPrefix_of_between {p a b : List α} (hp : ¬ a < p) (hab : a < b) (hb : p <+: b) :
    p <+: a := by
  induction p generalizing a b with
  | nil => exact List.nil_prefix
  | cons x p ih =>
      obtain ⟨t, rfl⟩ := hb
      cases a with
      | nil => exact absurd (List.nil_lt_cons x p) hp
      | cons y a =>
          rw [List.cons_append, List.cons_lt_cons_iff] at hab
          rw [List.cons_lt_cons_iff, not_or, not_and] at hp
          rcases hab with hlt | ⟨rfl, hlt⟩
          · exact absurd hlt hp.1
          · exact (List.prefix_cons_inj y).mpr
              (ih (hp.2 rfl) hlt (List.prefix_append p t))

end Sequence
