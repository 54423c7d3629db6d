import XchannelNet.Node.Naming

/-!
# Splices — when two logs end up in one replica

The handshake tells logs apart by their incarnation number alone, and the
number comes from the registry's epoch. Two nodes that register a name before
gossip connects them both get epoch 0, so a replica of the one is extended
from the other (`spliced_replica`). What IS true: as long as no log is
created under an incarnation some earlier log of the name already carries,
a replica is a window of one log, through any number of owners, reclaims,
restarts and reconnections (`no_splice_of_fresh_generations`).
-/

namespace XchannelNet.Naming

variable {V : Type*} [DecidableEq V]

/-- All records held come from one log, each at its own index. -/
def FromOneLog (store : List Log) (r : Log) : Prop :=
  ∃ (o : ℕ) (l : Log), store[o]? = some l ∧ ∀ x ∈ r.contents, l.get? x.2 = some x.1

def NoSplice (s : Sys V) : Prop :=
  ∀ r, s.sub.replica = some r → FromOneLog s.store r

/-- The incarnation of the log an operation is about to create, if it is. -/
def newGeneration (c : Config V) (s : Sys V) : Action V → Option UInt64
  | .create v now regionSize mtu memberOf =>
    match (s.host v).disk,
      ((s.host v).registry.claimName (c.nodeId v) now
        ⟨c.name, regionSize, mtu, memberOf⟩).2 with
    | none, .ok identity => some identity.epoch
    | _, _ => none
  | _ => none

/-- An operation creates no log under an incarnation that is taken. -/
def FreshGeneration (c : Config V) (s : Sys V) (a : Action V) : Prop :=
  ∀ g, newGeneration c s a = some g → ∀ l ∈ s.store, l.generation ≠ g

/-! ## What an operation does to the logs -/

/-- Operations on the name touch no log except to add one of the new
incarnation; logs grow on their own; the subscriber only reads them. -/
inductive Effect (c : Config V) (s : Sys V) (a : Action V) : Sys V → Prop
  | same {s' : Sys V} (hstore : s'.store = s.store) (hsub : s'.sub = s.sub) : Effect c s a s'
  | fresh {s' : Sys V} {l : Log} (hstore : s'.store = s.store ++ [l]) (hsub : s'.sub = s.sub)
      (hgen : newGeneration c s a = some l.generation) : Effect c s a s'
  | grow {s' : Sys V} {o : ℕ} {l l' : Log} (hstore : s'.store = s.store.set o l')
      (hsub : s'.sub = s.sub) (hl : s.store[o]? = some l) (hg : l.Grows l') : Effect c s a s'
  | subscriber {s' : Sys V} (hstore : s'.store = s.store)
      (hsub : SubStep c.name (s.mesh c) s.sub s'.sub) : Effect c s a s'

theorem effect_create (c : Config V) (s : Sys V) (v : V) (now : UInt64)
    (regionSize mtu : UInt32) (memberOf : Option ChannelName) :
    Effect c s (.create v now regionSize mtu memberOf)
      (s.create c v now regionSize mtu memberOf) := by
  simp only [Sys.create]
  split
  · exact .same rfl rfl
  · rename_i registry identity hclaim
    split
    · exact .same rfl rfl
    · rename_i l hbuild
      split
      · exact .same rfl rfl
      · rename_i hdisk
        -- with no log on disk the writer stamps the epoch it was given
        rw [Sys.logAt, hdisk, Option.bind_none, Log.build_none] at hbuild
        cases hbuild
        exact .fresh rfl rfl (by simp [newGeneration, hdisk, hclaim, Sys.originConfig])

theorem effect_deregister (c : Config V) (s : Sys V) (v : V) (removed : Bool) :
    Effect c s (.deregister v removed) (s.deregister c v removed) := by
  simp only [Sys.deregister]
  split
  · exact .same rfl rfl
  · exact .same rfl rfl

theorem effect_forceDeregister (c : Config V) (s : Sys V) (v : V) :
    Effect c s (.forceDeregister v) (s.forceDeregister c v) := by
  simp only [Sys.forceDeregister]
  split
  · exact .same rfl rfl
  · split
    · exact .same rfl rfl
    · split
      · exact .same rfl rfl
      · exact .same rfl rfl

theorem effect_reregister (c : Config V) (s : Sys V) (v : V) (now : UInt64) (mtu : UInt32) :
    Effect c s (.reregister v now mtu) (s.reregister c v now mtu) := by
  simp only [Sys.reregister]
  split
  · exact .same rfl rfl
  · split
    · exact .same rfl rfl
    · split
      · exact .same rfl rfl
      · exact .same rfl rfl

theorem effect_of_step {c : Config V} {s s' : Sys V} {a : Action V} (h : Step c s a s') :
    Effect c s a s' := by
  cases h with
  | create v now regionSize mtu memberOf => exact effect_create c s v now regionSize mtu memberOf
  | deregister v removed => exact effect_deregister c s v removed
  | forceDeregister v => exact effect_forceDeregister c s v
  | merge v id hid => exact .same rfl rfl
  | restart v => exact .same rfl rfl
  | reregister v now mtu => exact effect_reregister c s v now mtu
  | grow hl hg => exact .grow rfl rfl hl hg
  | subscriber hs => exact .subscriber rfl hs

/-! ## Under fresh incarnations -/

structure Inv (s : Sys V) : Prop where
  unique : UniqueGenerations s.store
  sub : SubInv s.store s.sub

theorem uniqueGenerations_set {store : List Log} {o : ℕ} {l l' : Log}
    (h : UniqueGenerations store) (hl : store[o]? = some l) (hg : l'.generation = l.generation) :
    UniqueGenerations (store.set o l') := by
  have hlt : o < store.length := (List.getElem?_eq_some_iff.mp hl).1
  -- a replaced log stands for the one it replaced
  have hback : ∀ (i : ℕ) (li : Log), (store.set o l')[i]? = some li →
      ∃ li', store[i]? = some li' ∧ li.generation = li'.generation := by
    intro i li hi
    by_cases hio : i = o
    · subst hio
      rw [List.getElem?_set_self hlt] at hi
      cases hi
      exact ⟨l, hl, hg⟩
    · rw [List.getElem?_set_ne (Ne.symm hio)] at hi
      exact ⟨li, hi, rfl⟩
  intro i j li lj hi hj hgen
  obtain ⟨li', hi', hgi⟩ := hback i li hi
  obtain ⟨lj', hj', hgj⟩ := hback j lj hj
  exact h i j li' lj' hi' hj' (hgi.symm.trans (hgen.trans hgj))

theorem uniqueGenerations_concat {store : List Log} {l : Log} (h : UniqueGenerations store)
    (hfresh : ∀ l' ∈ store, l'.generation ≠ l.generation) :
    UniqueGenerations (store ++ [l]) := by
  have hsplit : ∀ (i : ℕ) (li : Log), (store ++ [l])[i]? = some li →
      store[i]? = some li ∨ i = store.length ∧ li = l := by
    intro i li hi
    rcases Nat.lt_or_ge i store.length with hlt | hge
    · rw [List.getElem?_append_left hlt] at hi
      exact .inl hi
    · have hlt := (List.getElem?_eq_some_iff.mp hi).1
      simp only [List.length_append, List.length_cons, List.length_nil] at hlt
      obtain rfl : i = store.length := by omega
      simp only [List.getElem?_concat_length, Option.some.injEq] at hi
      exact .inr ⟨rfl, hi.symm⟩
  intro i j li lj hi hj hgen
  rcases hsplit i li hi with hi' | ⟨rfl, rfl⟩
  · rcases hsplit j lj hj with hj' | ⟨rfl, rfl⟩
    · exact h i j li lj hi' hj' hgen
    · exact absurd hgen (hfresh li (List.mem_of_getElem? hi'))
  · rcases hsplit j lj hj with hj' | ⟨rfl, -⟩
    · exact absurd hgen.symm (hfresh lj (List.mem_of_getElem? hj'))
    · rfl

theorem storeLe_concat (store : List Log) (l : Log) : StoreLe store (store ++ [l]) := by
  intro o lo ho
  have hlt : o < store.length := (List.getElem?_eq_some_iff.mp ho).1
  exact ⟨lo, by rw [List.getElem?_append_left hlt]; exact ho, .inl rfl⟩

omit [DecidableEq V] in
theorem inv_init {s : Sys V} (h : Init s) : Inv s := by
  obtain ⟨hstore, -, hsub, -⟩ := h
  refine ⟨?_, ?_⟩
  · intro i j li lj hi
    simp [hstore] at hi
  · rw [hsub]
    exact ⟨by simp, trivial⟩

theorem inv_step {c : Config V} {s s' : Sys V} {a : Action V} (h : Inv s) (hs : Step c s a s')
    (hfresh : FreshGeneration c s a) : Inv s' := by
  cases effect_of_step hs with
  | same hstore hsub =>
      exact ⟨hstore ▸ h.unique, hstore ▸ hsub ▸ h.sub⟩
  | @fresh l hstore hsub hgen =>
      refine ⟨?_, ?_⟩
      · rw [hstore]
        exact uniqueGenerations_concat h.unique (hfresh _ hgen)
      · rw [hstore, hsub]
        exact h.sub.mono (storeLe_concat _ l)
  | grow hstore hsub hl hg =>
      refine ⟨?_, ?_⟩
      · rw [hstore]
        exact uniqueGenerations_set h.unique hl hg.generation
      · rw [hstore, hsub]
        exact h.sub.mono (StoreLe.set hl hg)
  | subscriber hstore hsub =>
      refine ⟨hstore ▸ h.unique, ?_⟩
      rw [hstore]
      exact SubInv.step (m := s.mesh c) h.unique h.sub hsub

omit [DecidableEq V] in
theorem noSplice_of_inv {s : Sys V} (h : Inv s) : NoSplice s := by
  intro r hr
  obtain ⟨o, l, hl, -, hwin⟩ := h.sub.replica r hr
  refine ⟨o, l, hl, ?_⟩
  rintro ⟨rec, i⟩ hx
  have hmem := List.mem_map_of_mem (f := fun x : Record × ℕ => (x.2, some x.1)) hx
  rw [hwin.contents_eq, List.mem_map] at hmem
  obtain ⟨j, -, hj⟩ := hmem
  obtain ⟨rfl, hj⟩ := Prod.mk.inj hj
  exact hj

/-- **No splice under fresh incarnations**: in every run in which no log is
created under an incarnation already taken, the replica's records come from
one log at every moment. -/
theorem no_splice_of_fresh_generations {c : Config V} {s : Sys V}
    (h : Run.Reachable Init (fun s s' => ∃ a, Step c s a s' ∧ FreshGeneration c s a) s) :
    NoSplice s := by
  apply noSplice_of_inv
  refine h.invariant (fun _ h0 => inv_init h0) ?_
  rintro s s' hi ⟨a, hs, hf⟩
  exact inv_step hi hs hf

/-! ## A reclaim, and a race -/

/-- Nodes 0 and 1 host the name, node 2 subscribes. -/
def race : Config (Fin 3) where
  name := "c"
  nodeId := fun v => UInt64.ofNat (v + 1)
  subscriber := 2

def raceStart : Sys (Fin 3) := ⟨[], fun _ => ⟨.new, none, false⟩, [], ⟨none, .idle⟩⟩

/-- The identity node `owner` registers, at its own clock. -/
def raceIdentity (owner now epoch : UInt64) : ChannelIdentity :=
  { name := "c", owner, regionSize := 4096, mtu := 0, earliestIndex := 0,
    registeredAtNanos := now, epoch, deleted := false, memberOf := none }

def raceLog (generation : UInt64) : Log :=
  { toSegLog := .empty 0, name := "c", generation, regionSize := 4096 }

def raceRecord (b : UInt8) : Record := ⟨1, 0, [b]⟩

theorem raceLog_commit_grows (l : Log) (b : UInt8) : l.Grows (l.commit (raceRecord b)) :=
  ⟨.append _ _, rfl, rfl, rfl⟩

/-- A name deregistered and registered again: the second log is a new
incarnation, and the replica of it holds that log's record. -/
theorem no_splice_after_reclaim : ∃ s : Sys (Fin 3),
    (∃ r, s.sub.replica = some r ∧ r.contents = [(raceRecord 30, 0)]) ∧ NoSplice s := by
  have none_fresh : ∀ {s : Sys (Fin 3)} {a : Action (Fin 3)}, newGeneration race s a = none →
      FreshGeneration race s a := by
    intro s a h g hg
    rw [h] at hg
    cases hg
  have h₀ : Run.Reachable Init
      (fun s s' => ∃ a, Step race s a s' ∧ FreshGeneration race s a) raceStart :=
    .start ⟨rfl, rfl, rfl, fun _ => rfl⟩
  have h₁ := h₀.next ⟨_, .create _ 0 200 4096 0 none, fun g _ l hl => by cases hl⟩
  have h₂ := h₁.next ⟨_, .deregister _ 0 true, none_fresh rfl⟩
  have h₃ := h₂.next ⟨_, .create _ 0 300 4096 0 none, by
    intro g hg l hl
    obtain rfl := List.mem_singleton.mp hl
    obtain rfl := Option.some.inj hg
    decide⟩
  have h₄ := h₃.next ⟨_, .grow (o := 1) rfl (raceLog_commit_grows (raceLog 1) 30),
    none_fresh rfl⟩
  have h₅ := h₄.next ⟨_, .merge 2 (raceIdentity 1 300 1) (by decide), none_fresh rfl⟩
  have h₆ := h₅.next
    ⟨_, .subscriber (.ask 0 4096 rfl ⟨raceIdentity 1 300 1, rfl, rfl, rfl⟩), none_fresh rfl⟩
  have h₇ := h₆.next ⟨_, .subscriber (.openSource rfl rfl rfl), none_fresh rfl⟩
  have h₈ := h₇.next
    ⟨_, .subscriber (.accept (c := ⟨4096, 0, 0, 0⟩) rfl rfl rfl), none_fresh rfl⟩
  have h₉ := h₈.next ⟨_, .subscriber (.sendEarly rfl rfl), none_fresh rfl⟩
  have h₁₀ := h₉.next ⟨_, .subscriber (.openSink rfl rfl), none_fresh rfl⟩
  have h₁₁ := h₁₀.next ⟨_, .subscriber (.apply rfl rfl rfl), none_fresh rfl⟩
  exact ⟨_, ⟨_, rfl, by decide⟩, no_splice_of_fresh_generations h₁₁⟩

/-- **A spliced replica.** Both nodes register before they hear of each
other, so both logs carry incarnation 0. The subscriber replicates one record
of the later registrant, then learns the earlier one has won; its resume at
index 1 passes every check there, and the replica continues with the other
log's record. -/
theorem spliced_replica : ∃ s : Sys (Fin 3),
    Run.Reachable Init (fun s s' => ∃ a, Step race s a s') s ∧ ¬ NoSplice s := by
  have h₀ : Run.Reachable Init (fun s s' => ∃ a, Step race s a s') raceStart :=
    .start ⟨rfl, rfl, rfl, fun _ => rfl⟩
  have h₁ := h₀.next ⟨_, .create _ 0 200 4096 0 none⟩
  have h₂ := h₁.next ⟨_, .create _ 1 100 4096 0 none⟩
  have h₃ := h₂.next ⟨_, .grow (o := 0) rfl (raceLog_commit_grows (raceLog 0) 10)⟩
  have h₄ := h₃.next ⟨_, .grow (o := 1) rfl (raceLog_commit_grows (raceLog 0) 20)⟩
  have h₅ := h₄.next ⟨_, .grow (o := 1) rfl (raceLog_commit_grows _ 21)⟩
  have h₆ := h₅.next ⟨_, .merge 2 (raceIdentity 1 200 0) (by decide)⟩
  have h₇ := h₆.next ⟨_, .subscriber (.ask 0 4096 rfl ⟨raceIdentity 1 200 0, rfl, rfl, rfl⟩)⟩
  have h₈ := h₇.next ⟨_, .subscriber (.openSource rfl rfl rfl)⟩
  have h₉ := h₈.next ⟨_, .subscriber (.accept (c := ⟨4096, 0, 0, 0⟩) rfl rfl rfl)⟩
  have h₁₀ := h₉.next ⟨_, .subscriber (.sendEarly rfl rfl)⟩
  have h₁₁ := h₁₀.next ⟨_, .subscriber (.openSink rfl rfl)⟩
  have h₁₂ := h₁₁.next ⟨_, .subscriber (.apply rfl rfl rfl)⟩
  have h₁₃ := h₁₂.next ⟨_, .subscriber (.drop _)⟩
  have h₁₄ := h₁₃.next ⟨_, .merge 2 (raceIdentity 2 100 0) (by decide)⟩
  have h₁₅ := h₁₄.next ⟨_, .subscriber (.ask 1 4096 rfl ⟨raceIdentity 2 100 0, rfl, rfl, rfl⟩)⟩
  have h₁₆ := h₁₅.next ⟨_, .subscriber (.openSource rfl rfl rfl)⟩
  have h₁₇ := h₁₆.next ⟨_, .subscriber (.accept (c := ⟨4096, 0, 0, 0⟩) rfl rfl rfl)⟩
  have h₁₈ := h₁₇.next ⟨_, .subscriber (.sendEarly rfl rfl)⟩
  have h₁₉ := h₁₈.next ⟨_, .subscriber (.openSink rfl rfl)⟩
  have h₂₀ := h₁₉.next ⟨_, .subscriber (.apply rfl rfl rfl)⟩
  refine ⟨_, h₂₀, fun hno => ?_⟩
  obtain ⟨o, l, hl, hall⟩ := hno _ rfl
  have hfirst := hall (raceRecord 10, 0) (by decide)
  have hsecond := hall (raceRecord 21, 1) (by decide)
  -- log 0 has no second record, log 1 another first one, and there is no log 2
  rcases o with _ | _ | o
  · obtain rfl := Option.some.inj hl
    exact absurd hsecond (by decide)
  · obtain rfl := Option.some.inj hl
    exact absurd hfirst (by decide)
  · cases hl

end XchannelNet.Naming
