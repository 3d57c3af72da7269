import HCache.InterleavedSystems
import HCache.SequentialMachines
import Mathlib.Data.List.Induction
import Mathlib.Data.List.Nodup

/-!
# Calls of several operations

A call is a list of operations on one machine. Each operation is performed at once, the
operations of all calls in any order; only those of one call that share a lane keep the
order of the list. The log of what has been performed is a sequential history of the
machine.
-/
namespace HCache.CompositeCalls
open SequentialMachines InterleavedSystems

variable {σ τ α ρ ι : Type*}

/-- An operation that has been performed: its call, its place in the call, and itself. -/
structure Entry (α : Type*) where
  call : ℕ
  index : ℕ
  op : α

def Entry.key (e : Entry α) : ℕ × ℕ := (e.call, e.index)

structure Service (σ α ρ : Type*) where
  state : σ
  calls : ℕ → Option (List α)
  replies : ℕ × ℕ → Option ρ
  log : List (Entry α)

inductive Event (α : Type*) where
  | call (id : ℕ) (ops : List α)
  | perform (id index : ℕ)

def Service.start (s : σ) : Service σ α ρ := ⟨s, fun _ => none, fun _ => none, []⟩

def Service.issue (s : Service σ α ρ) (id : ℕ) (ops : List α) : Service σ α ρ :=
  { s with calls := Function.update s.calls id (some ops) }

def Service.perform (m : σ → α → σ × ρ) (s : Service σ α ρ) (e : Entry α) : Service σ α ρ :=
  { s with
    state := (m s.state e.op).1
    replies := Function.update s.replies e.key (some (m s.state e.op).2)
    log := s.log ++ [e] }

/-- The operation gets its reply; all others keep theirs. -/
theorem Service.perform_replies (m : σ → α → σ × ρ) (s : Service σ α ρ) (e : Entry α)
    (key : ℕ × ℕ) :
    (s.perform m e).replies key = if key = e.key then some (m s.state e.op).2 else s.replies key :=
  Function.update_apply _ _ _ _

theorem Service.replies_none_of_perform {m : σ → α → σ × ρ} {s : Service σ α ρ} {e : Entry α}
    {key : ℕ × ℕ} (h : (s.perform m e).replies key = none) :
    key ≠ e.key ∧ s.replies key = none := by
  rw [Service.perform_replies] at h
  split at h
  · simp at h
  · next hne => exact ⟨hne, h⟩

/-- Every operation of the call that is earlier in the list and in the same lane has its reply. -/
def Service.InTurn [DecidableEq ι] (lane : α → ι) (s : Service σ α ρ) (ops : List α) (e : Entry α) :
    Prop :=
  ∀ j < e.index, ops[j]?.map lane = some (lane e.op) → (s.replies (e.call, j)).isSome

instance [DecidableEq ι] (lane : α → ι) (s : Service σ α ρ) (ops : List α) (e : Entry α) :
    Decidable (s.InTurn lane ops e) :=
  inferInstanceAs (Decidable (∀ j < e.index, ops[j]?.map lane = some (lane e.op) →
    (s.replies (e.call, j)).isSome))

def step [DecidableEq ι] (m : σ → α → σ × ρ) (lane : α → ι) (s : Service σ α ρ) :
    Event α → Option (Service σ α ρ)
  | .call id ops =>
    if (s.calls id).isNone then some (s.issue id ops) else none
  | .perform id index =>
    match s.calls id with
    | none => none
    | some ops =>
      match ops[index]? with
      | none => none
      | some op =>
        if (s.replies (id, index)).isNone ∧ s.InTurn lane ops ⟨id, index, op⟩ then
          some (s.perform m ⟨id, index, op⟩)
        else none

theorem step_call [DecidableEq ι] {m : σ → α → σ × ρ} {lane : α → ι} {s : Service σ α ρ} {id : ℕ}
    (h : s.calls id = none) (ops : List α) :
    step m lane s (.call id ops) = some (s.issue id ops) := by
  simp [step, h]

theorem step_perform [DecidableEq ι] {m : σ → α → σ × ρ} {lane : α → ι} {s : Service σ α ρ}
    {ops : List α} {id index : ℕ} {op : α} (hops : s.calls id = some ops)
    (hop : ops[index]? = some op) (hnone : s.replies (id, index) = none)
    (hturn : s.InTurn lane ops ⟨id, index, op⟩) :
    step m lane s (.perform id index) = some (s.perform m ⟨id, index, op⟩) := by
  simp only [step, hops, hop, hnone, hturn, Option.isNone_none, and_self, if_true]

/-- The replies of the machine to a log, under the places of the operations. -/
def answers (m : σ → α → σ × ρ) (s : σ) (log : List (Entry α)) : List ((ℕ × ℕ) × ρ) :=
  (log.map Entry.key).zip (responses m s (log.map Entry.op))

theorem answers_append (m : σ → α → σ × ρ) (s : σ) (log : List (Entry α)) (e : Entry α) :
    answers m s (log ++ [e]) =
      answers m s log ++ [(e.key, (m (final m s (log.map Entry.op)) e.op).2)] := by
  rw [answers, List.map_append, List.map_append, responses_append, List.zip_append (by simp)]
  rfl

theorem mem_keys_of_answers {m : σ → α → σ × ρ} {s : σ} {log : List (Entry α)} {key : ℕ × ℕ} {r : ρ}
    (h : (key, r) ∈ answers m s log) : key ∈ log.map Entry.key :=
  (List.of_mem_zip h).1

/-- An answer is the reply of the machine as the operations before it have left it. -/
theorem exists_of_mem_answers {m : σ → α → σ × ρ} {s : σ} {log : List (Entry α)} {key : ℕ × ℕ}
    {r : ρ} (h : (key, r) ∈ answers m s log) :
    ∃ earlier e later, log = earlier ++ e :: later ∧ e.key = key ∧
      r = (m (final m s (earlier.map Entry.op)) e.op).2 := by
  induction log using List.reverseRecOn with
  | nil => simp [answers, responses] at h
  | append_singleton log e ih =>
    rw [answers_append, List.mem_append, List.mem_singleton] at h
    rcases h with h | h
    · obtain ⟨earlier, e', later, rfl, hkey, hr⟩ := ih h
      exact ⟨earlier, e', later ++ [e], by simp, hkey, hr⟩
    · obtain ⟨rfl, rfl⟩ := Prod.mk.inj h
      exact ⟨log, e, [], rfl, rfl, rfl⟩

/-- A machine that another one simulates with the same replies gives a log the same answers. -/
theorem answers_of_simulates {m : σ → α → σ × ρ} {n : τ → α → τ × ρ} {P : α → Prop}
    {R : σ → τ → Prop} (h : Simulates m n P R Eq) {s : σ} {t : τ} (hr : R s t)
    {log : List (Entry α)} (hp : ∀ e ∈ log, P e.op) :
    answers m s log = answers n t log := by
  have heq :
      List.Forall₂ Eq (responses m s (log.map Entry.op)) (responses n t (log.map Entry.op)) :=
    h.responses hr (List.forall_mem_map.mpr hp)
  rw [List.forall₂_eq_eq_eq] at heq
  rw [answers, heq, answers]

/-- What holds of a service that has started from `s₀`, in every state. -/
structure History (m : σ → α → σ × ρ) (lane : α → ι) (s₀ : σ) (s : Service σ α ρ) : Prop where
  state : s.state = final m s₀ (s.log.map Entry.op)
  replied : ∀ key r, s.replies key = some r → (key, r) ∈ answers m s₀ s.log
  pending : ∀ key, s.replies key = none → key ∉ s.log.map Entry.key
  once : (s.log.map Entry.key).Nodup
  logged : ∀ e ∈ s.log, ∃ ops, s.calls e.call = some ops ∧ ops[e.index]? = some e.op
  turns : ∀ e ∈ s.log, ∀ ops, s.calls e.call = some ops →
    ∀ j < e.index, ops[j]?.map lane = some (lane e.op) →
    (e.call, j) ∈ s.log.map Entry.key
  ordered : s.log.Pairwise (fun e f => e.call = f.call → lane e.op = lane f.op → e.index < f.index)

section Steps
variable {m : σ → α → σ × ρ} {lane : α → ι} {s₀ : σ} {s s' : Service σ α ρ}

theorem history_start (m : σ → α → σ × ρ) (lane : α → ι) (s₀ : σ) :
    History m lane s₀ (.start s₀) := by
  constructor
  · rfl
  · intro key r h
    simp [Service.start] at h
  · simp [Service.start]
  · simp [Service.start]
  · simp [Service.start]
  · simp [Service.start]
  · simp [Service.start]

theorem History.issue (h : History m lane s₀ s) {id : ℕ} (hnew : s.calls id = none) (ops : List α) :
    History m lane s₀ (s.issue id ops) := by
  have hold : ∀ e ∈ s.log, (s.issue id ops).calls e.call = s.calls e.call := by
    intro e he
    obtain ⟨ops', hops, -⟩ := h.logged e he
    have hne : e.call ≠ id := by
      intro hid
      rw [hid, hnew] at hops
      simp at hops
    exact Function.update_of_ne hne _ _
  refine { h with logged := ?_, turns := ?_ }
  · intro e he
    rw [hold e he]
    exact h.logged e he
  · intro e he
    rw [hold e he]
    exact h.turns e he

theorem History.mem_of_replied (h : History m lane s₀ s) {key : ℕ × ℕ}
    (hr : (s.replies key).isSome) :
    key ∈ s.log.map Entry.key := by
  obtain ⟨r, hr⟩ := Option.isSome_iff_exists.mp hr
  exact mem_keys_of_answers (h.replied key r hr)

variable [DecidableEq ι]

theorem History.perform (h : History m lane s₀ s) {ops : List α} {e : Entry α}
    (hops : s.calls e.call = some ops) (hop : ops[e.index]? = some e.op)
    (hnone : s.replies e.key = none) (hturn : s.InTurn lane ops e) :
    History m lane s₀ (s.perform m e) := by
  have hnew : e.key ∉ s.log.map Entry.key := h.pending e.key hnone
  constructor
  · simp only [Service.perform, List.map_append, final_append, ← h.state]
    rfl
  · intro key r hr
    simp only [Service.perform, answers_append, ← h.state, List.mem_append, List.mem_singleton]
      at hr ⊢
    rcases eq_or_ne key e.key with rfl | hne
    · rw [Function.update_self] at hr
      exact .inr (by rw [Option.some.inj hr])
    · rw [Function.update_of_ne hne] at hr
      exact .inl (h.replied key r hr)
  · intro key hkey
    simp only [Service.perform, List.map_append, List.mem_append, not_or] at hkey ⊢
    have hne : key ≠ e.key := by
      rintro rfl
      simp at hkey
    rw [Function.update_of_ne hne] at hkey
    exact ⟨h.pending key hkey, by simpa using hne⟩
  · simp only [Service.perform, List.map_append]
    exact h.once.append (by simp) (by simpa using hnew)
  · intro f hf
    rcases List.mem_append.mp hf with hf | hf
    · exact h.logged f hf
    · obtain rfl := List.mem_singleton.mp hf
      exact ⟨ops, hops, hop⟩
  · intro f hf ops' hops' j hj hlane
    rw [Service.perform, List.map_append, List.mem_append]
    rcases List.mem_append.mp hf with hf | hf
    · exact .inl (h.turns f hf ops' hops' j hj hlane)
    · obtain rfl := List.mem_singleton.mp hf
      obtain rfl : ops = ops' := Option.some.inj (hops.symm.trans hops')
      exact .inl (h.mem_of_replied (hturn j hj hlane))
  · refine List.pairwise_append.mpr ⟨h.ordered, List.pairwise_singleton _ _, ?_⟩
    intro f hf g hg hcall hlane
    obtain rfl := List.mem_singleton.mp hg
    -- a later operation of the lane would have waited for this one
    by_contra hlt
    refine hnew ?_
    rcases Nat.lt_or_eq_of_le (Nat.le_of_not_lt hlt) with hgt | heq
    · have hmem := h.turns f hf ops (hcall ▸ hops) g.index hgt (by rw [hop, hlane]; rfl)
      rwa [hcall] at hmem
    · have hkey : g.key = f.key := by simp only [Entry.key, hcall, heq]
      rw [hkey]
      exact List.mem_map_of_mem hf

/-- One event keeps the history and performs operations only at the end of the log. -/
theorem History.step (h : History m lane s₀ s) {event : Event α}
    (hs : step m lane s event = some s') :
    History m lane s₀ s' ∧ s.log <+: s'.log := by
  cases event with
  | call id ops =>
    simp only [CompositeCalls.step] at hs
    split at hs
    · next hnew =>
      obtain rfl := Option.some.inj hs
      exact ⟨h.issue (Option.isNone_iff_eq_none.mp hnew) ops, List.prefix_rfl⟩
    · simp at hs
  | perform id index =>
    simp only [CompositeCalls.step] at hs
    split at hs
    · simp at hs
    · next ops hops =>
      split at hs
      · simp at hs
      · next op hop =>
        split at hs
        · next hready =>
          obtain rfl := Option.some.inj hs
          have hnone := Option.isNone_iff_eq_none.mp hready.1
          exact ⟨h.perform hops hop hnone hready.2, List.prefix_append _ _⟩
        · simp at hs

theorem History.run (h : History m lane s₀ s) {events : List (Event α)}
    (hr : InterleavedSystems.run (CompositeCalls.step m lane) s events = some s') :
    History m lane s₀ s' ∧ s.log <+: s'.log := by
  have hstep : ∀ (t : Service σ α ρ) event t', (History m lane s₀ t ∧ s.log <+: t.log) →
      CompositeCalls.step m lane t event = some t' → History m lane s₀ t' ∧ s.log <+: t'.log := by
    rintro t event t' ⟨ht, hlog⟩ hs
    obtain ⟨ht', hlog'⟩ := ht.step hs
    exact ⟨ht', hlog.trans hlog'⟩
  exact run_invariant_of_step (fun t => History m lane s₀ t ∧ s.log <+: t.log) hstep
    ⟨h, List.prefix_rfl⟩ hr

end Steps

/-- Growing numbers with all smaller ones among them are the first ones. -/
theorem eq_range_of_closed {l : List ℕ} (hlt : l.Pairwise (· < ·))
    (hclosed : ∀ i ∈ l, ∀ j < i, j ∈ l) :
    l = List.range l.length := by
  induction l using List.reverseRecOn with
  | nil => rfl
  | append_singleton l i ih =>
    rw [List.pairwise_append] at hlt
    have hbelow : ∀ j ∈ l, j < i := fun j hj => hlt.2.2 j hj i (by simp)
    have hl : l = List.range l.length := by
      refine ih hlt.1 (fun j hj k hk => ?_)
      refine (List.mem_append.mp (hclosed j (by simp [hj]) k hk)).resolve_right ?_
      have hji := hbelow j hj
      simp only [List.mem_singleton]
      omega
    have hi : i = l.length := by
      refine Nat.le_antisymm ?_ ?_
      · by_contra hgt
        have hin : l.length ∈ l := by
          refine (List.mem_append.mp (hclosed i (by simp) l.length (by omega))).resolve_right ?_
          simp only [List.mem_singleton]
          omega
        rw [hl, List.length_range] at hin
        simp at hin
      · by_contra hgt
        have hin : i ∈ l := by
          rw [hl]
          exact List.mem_range.mpr (by omega)
        exact Nat.lt_irrefl i (hbelow i hin)
    rw [List.length_append, List.length_singleton, List.range_succ, ← hl, ← hi]

variable {m : σ → α → σ × ρ} {lane : α → ι} {s₀ : σ} {s : Service σ α ρ}

def entriesOf (log : List (Entry α)) (id : ℕ) : List (Entry α) := log.filter (fun e => e.call = id)

theorem mem_entriesOf {log : List (Entry α)} {id : ℕ} {e : Entry α} :
    e ∈ entriesOf log id ↔ e ∈ log ∧ e.call = id := by
  simp [entriesOf]

/-- A call whose operations share a lane has had its first operations. -/
theorem History.indexes (h : History m lane s₀ s) {id : ℕ} {ops : List α}
    (hops : s.calls id = some ops) (hlane : ∀ op ∈ ops, ∀ op' ∈ ops, lane op = lane op') :
    (entriesOf s.log id).map Entry.index = List.range (entriesOf s.log id).length := by
  have hop : ∀ e ∈ entriesOf s.log id, ops[e.index]? = some e.op := by
    intro e he
    obtain ⟨hlog, rfl⟩ := mem_entriesOf.mp he
    obtain ⟨ops', hops', hop⟩ := h.logged e hlog
    rwa [← Option.some.inj (hops.symm.trans hops')] at hop
  rw [← List.length_map (Entry.index : Entry α → ℕ)]
  refine eq_range_of_closed ?_ ?_
  · rw [List.pairwise_map]
    refine (h.ordered.sublist List.filter_sublist).imp_of_mem ?_
    intro e f he hf hlt
    exact hlt ((mem_entriesOf.mp he).2.trans (mem_entriesOf.mp hf).2.symm)
      (hlane _ (List.mem_of_getElem? (hop e he)) _ (List.mem_of_getElem? (hop f hf)))
  · intro i hi j hj
    obtain ⟨e, he, rfl⟩ := List.mem_map.mp hi
    obtain ⟨hlog, rfl⟩ := mem_entriesOf.mp he
    have hjlt : j < ops.length := Nat.lt_trans hj (List.getElem?_eq_some_iff.mp (hop e he)).1
    have hmem := h.turns e hlog ops hops j hj (by
      rw [List.getElem?_eq_getElem hjlt, Option.map_some,
        hlane _ (List.getElem_mem hjlt) _ (List.mem_of_getElem? (hop e he))])
    obtain ⟨f, hf, hkey⟩ := List.mem_map.mp hmem
    obtain ⟨hcall, rfl⟩ := Prod.mk.inj hkey
    exact List.mem_map_of_mem (mem_entriesOf.mpr ⟨hf, hcall⟩)

theorem History.ops_prefix (h : History m lane s₀ s) {id : ℕ} {ops : List α}
    (hops : s.calls id = some ops) (hlane : ∀ op ∈ ops, ∀ op' ∈ ops, lane op = lane op') :
    (entriesOf s.log id).map Entry.op <+: ops := by
  have hindexes := h.indexes hops hlane
  rw [List.prefix_iff_getElem?]
  intro j hj
  rw [List.length_map] at hj
  have hindex : ((entriesOf s.log id)[j]).index = j := by
    have hget := congrArg (fun l => l[j]?) hindexes
    simpa [hj] using hget
  obtain ⟨hlog, hcall⟩ := mem_entriesOf.mp (List.getElem_mem hj)
  obtain ⟨ops', hops', hop⟩ := h.logged _ hlog
  rw [hcall] at hops'
  rw [← Option.some.inj (hops.symm.trans hops'), hindex] at hop
  rw [List.getElem_map, hop]

/-- A call has had all its operations when the last one has been performed. -/
theorem History.ops_eq (h : History m lane s₀ s) {id : ℕ} {ops : List α}
    (hops : s.calls id = some ops) (hlane : ∀ op ∈ ops, ∀ op' ∈ ops, lane op = lane op')
    (hall : ∀ j < ops.length, (id, j) ∈ s.log.map Entry.key) :
    (entriesOf s.log id).map Entry.op = ops := by
  refine (h.ops_prefix hops hlane).eq_of_length_le ?_
  by_contra hlt
  rw [List.length_map] at hlt
  obtain ⟨e, he, hkey⟩ := List.mem_map.mp (hall (entriesOf s.log id).length (by omega))
  obtain ⟨hcall, hindex⟩ := Prod.mk.inj hkey
  have hin : e.index ∈ (entriesOf s.log id).map Entry.index :=
    List.mem_map_of_mem (mem_entriesOf.mpr ⟨he, hcall⟩)
  rw [h.indexes hops hlane, hindex] at hin
  simp at hin

end HCache.CompositeCalls
