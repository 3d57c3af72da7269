import HCache.CompositeCalls
import HCache.KeyPartitions

/-!
# Operations that take several atomic steps

An operation on a shared state is a program of atomic steps, and the steps of all operations
under way come in any order. Each sees and changes the state under one key. Where operations
that overlap under a key only read there, every reply is that of operations performed at once,
and so is what the state shows under a key at which no operation is writing.
-/
namespace HCache.AtomicSteps
open InterleavedSystems KeyPartitions
open CompositeCalls (Service Entry)

variable {σ τ α ρ κ ε ι : Type*}

/-- Each step changes the state and goes on by what it has found. -/
inductive Program (σ ρ : Type*) where
  | done (reply : ρ)
  | act (effect : σ → σ) (next : σ → Program σ ρ)

def Program.alone : Program σ ρ → σ → σ × ρ
  | .done reply, s => (s, reply)
  | .act effect next, s => (next s).alone (effect s)

/-- `P` holds of every step that the program may take. -/
def Program.All (P : (σ → σ) → (σ → Program σ ρ) → Prop) : Program σ ρ → Prop
  | .done _ => True
  | .act effect next => P effect next ∧ ∀ s, (next s).All P

/-- A step that sees and changes what the state shows under one key, and nothing else. -/
structure LocalStep (view : σ → κ → ε) (key : κ) (effect : σ → σ) (next : σ → Program σ ρ) :
    Prop where
  other : ∀ s k, k ≠ key → view (effect s) k = view s k
  self : ∀ s t, view s key = view t key → view (effect s) key = view (effect t) key
  next : ∀ s t, view s key = view t key → next s = next t

def Program.Local (view : σ → κ → ε) (key : κ) : Program σ ρ → Prop := All (LocalStep view key)

def Program.Quiet (view : σ → κ → ε) : Program σ ρ → Prop :=
  All (fun effect _ => ∀ s k, view (effect s) k = view s k)

def Program.Keeps (P : σ → Prop) : Program σ ρ → Prop :=
  All (fun effect _ => ∀ s, P s → P (effect s))

variable {view : σ → κ → ε} {key : κ} {p : Program σ ρ}

theorem Program.Local.other (h : p.Local view key) (s : σ) {k : κ} (hk : k ≠ key) :
    view (p.alone s).1 k = view s k := by
  induction p generalizing s with
  | done reply => rfl
  | act effect next ih => exact (ih s (h.2 s) (effect s)).trans (h.1.other s k hk)

theorem Program.Local.congr (h : p.Local view key) {s t : σ} (hst : view s key = view t key) :
    view (p.alone s).1 key = view (p.alone t).1 key ∧ (p.alone s).2 = (p.alone t).2 := by
  induction p generalizing s t with
  | done reply => exact ⟨hst, rfl⟩
  | act effect next ih =>
    have hrest := ih s (h.2 s) (h.1.self s t hst)
    rw [Program.alone, Program.alone, ← h.1.next s t hst]
    exact hrest

theorem Program.Quiet.alone (h : p.Quiet view) (s : σ) (k : κ) :
    view (p.alone s).1 k = view s k := by
  induction p generalizing s with
  | done reply => rfl
  | act effect next ih => exact (ih s (h.2 s) (effect s)).trans (h.1 s k)

/-- The program of each operation, the key that it works on, and whether it only reads. -/
structure Operations (σ α ρ κ : Type*) where
  program : α → Program σ ρ
  key : α → κ
  reads : α → Prop

structure Operations.WellKept (ops : Operations σ α ρ κ) (view : σ → κ → ε) : Prop where
  within : ∀ op, (ops.program op).Local view (ops.key op)
  quiet : ∀ op, ops.reads op → (ops.program op).Quiet view

def Operations.perform (ops : Operations σ α ρ κ) (s : σ) (op : α) : σ × ρ :=
  (ops.program op).alone s

/-- A service whose operations take their steps one by one. -/
structure Stepwise (σ α ρ : Type*) where
  service : Service σ α ρ
  active : ℕ × ℕ → Option (α × Program σ ρ)

inductive Event (α : Type*) where
  | call (id : ℕ) (ops : List α)
  | begin (id index : ℕ)
  | act (id index : ℕ)

def Stepwise.issue (s : Stepwise σ α ρ) (id : ℕ) (calls : List α) : Stepwise σ α ρ :=
  { s with service := s.service.issue id calls }

def Stepwise.enter (s : Stepwise σ α ρ) (place : ℕ × ℕ) (op : α) (p : Program σ ρ) :
    Stepwise σ α ρ :=
  { s with active := Function.update s.active place (some (op, p)) }

def Stepwise.change (s : Stepwise σ α ρ) (effect : σ → σ) : Stepwise σ α ρ :=
  { s with service := { s.service with state := effect s.service.state } }

def Stepwise.leave (s : Stepwise σ α ρ) (e : Entry α) (reply : ρ) : Stepwise σ α ρ where
  service := { s.service with
    replies := Function.update s.service.replies e.key (some reply)
    log := s.service.log ++ [e] }
  active := Function.update s.active e.key none

variable [DecidableEq ι]

def step (ops : Operations σ α ρ κ) (lane : α → ι) (s : Stepwise σ α ρ) :
    Event α → Option (Stepwise σ α ρ)
  | .call id calls => if (s.service.calls id).isNone then some (s.issue id calls) else none
  | .begin id index =>
    match s.service.calls id with
    | none => none
    | some calls =>
      match calls[index]? with
      | none => none
      | some op =>
        if (s.service.replies (id, index)).isNone ∧ (s.active (id, index)).isNone ∧
            s.service.InTurn lane calls ⟨id, index, op⟩ then
          some (s.enter (id, index) op (ops.program op))
        else none
  | .act id index =>
    match s.active (id, index) with
    | none => none
    | some (op, .done reply) => some (s.leave ⟨id, index, op⟩ reply)
    | some (op, .act effect next) =>
      some ((s.change effect).enter (id, index) op (next s.service.state))

variable {ops : Operations σ α ρ κ} {lane : α → ι} {s s' : Stepwise σ α ρ}

/-- What one event does. -/
theorem step_cases {event : Event α} (h : step ops lane s event = some s') :
    (∃ id calls, event = .call id calls ∧ s.service.calls id = none ∧ s' = s.issue id calls) ∨
    (∃ id index calls op, event = .begin id index ∧ s.service.calls id = some calls ∧
      calls[index]? = some op ∧ s.service.replies (id, index) = none ∧
      s.active (id, index) = none ∧ s.service.InTurn lane calls ⟨id, index, op⟩ ∧
      s' = s.enter (id, index) op (ops.program op)) ∨
    (∃ id index op reply, event = .act id index ∧
      s.active (id, index) = some (op, .done reply) ∧ s' = s.leave ⟨id, index, op⟩ reply) ∨
    ∃ id index op effect next, event = .act id index ∧
      s.active (id, index) = some (op, .act effect next) ∧
      s' = (s.change effect).enter (id, index) op (next s.service.state) := by
  cases event with
  | call id calls =>
    simp only [step] at h
    split at h
    · next hnew =>
      exact .inl ⟨id, calls, rfl, Option.isNone_iff_eq_none.mp hnew, (Option.some.inj h).symm⟩
    · simp at h
  | begin id index =>
    simp only [step] at h
    split at h
    · simp at h
    · next calls hcalls =>
      split at h
      · simp at h
      · next op hop =>
        split at h
        · next hready =>
          obtain ⟨hreply, hactive, hturn⟩ := hready
          exact .inr (.inl ⟨id, index, calls, op, rfl, hcalls, hop,
            Option.isNone_iff_eq_none.mp hreply, Option.isNone_iff_eq_none.mp hactive, hturn,
            (Option.some.inj h).symm⟩)
        · simp at h
  | act id index =>
    simp only [step] at h
    split at h
    · simp at h
    · next op reply hactive =>
      exact .inr (.inr (.inl ⟨id, index, op, reply, rfl, hactive, (Option.some.inj h).symm⟩))
    · next op effect next hactive =>
      exact .inr (.inr (.inr ⟨id, index, op, effect, next, rfl, hactive,
        (Option.some.inj h).symm⟩))

/-- An operation under way is of its call, is in its turn and has no reply. -/
def Sound (lane : α → ι) (s : Stepwise σ α ρ) : Prop :=
  ∀ id index op p, s.active (id, index) = some (op, p) → ∃ calls, s.service.calls id = some calls ∧
    calls[index]? = some op ∧ s.service.replies (id, index) = none ∧
    s.service.InTurn lane calls ⟨id, index, op⟩

theorem Sound.step (h : Sound lane s) {event : Event α} (hs : step ops lane s event = some s') :
    Sound lane s' := by
  intro id index op p hactive
  rcases step_cases hs with ⟨id', calls, -, hnew, rfl⟩ |
    ⟨id', index', calls, op', -, hcalls, hop, hreply, -, hturn, rfl⟩ |
    ⟨id', index', op', reply, -, hdone, rfl⟩ | ⟨id', index', op', effect, next, -, hact, rfl⟩
  · obtain ⟨calls', hcalls, hrest⟩ := h id index op p hactive
    refine ⟨calls', ?_, hrest⟩
    have hne : id ≠ id' := by
      rintro rfl
      simp [hnew] at hcalls
    exact (Function.update_of_ne hne _ _).trans hcalls
  · rcases update_eq_some_cases hactive with ⟨heq, hwhat⟩ | ⟨-, hold⟩
    · obtain ⟨rfl, rfl⟩ := Prod.mk.inj heq
      obtain ⟨rfl, -⟩ := Prod.mk.inj hwhat
      exact ⟨calls, hcalls, hop, hreply, hturn⟩
    · exact h id index op p hold
  · have hne : (id, index) ≠ (id', index') := by
      intro heq
      simp [Stepwise.leave, Entry.key, heq] at hactive
    have hold : s.active (id, index) = some (op, p) :=
      (Function.update_of_ne hne _ _).symm.trans hactive
    obtain ⟨calls, hcalls, hop, hreply, hturn⟩ := h id index op p hold
    refine ⟨calls, hcalls, hop, (Function.update_of_ne hne _ _).trans hreply, ?_⟩
    intro j hj hlane
    simp only [Stepwise.leave, Function.update_apply]
    split
    · rfl
    · exact hturn j hj hlane
  · rcases update_eq_some_cases hactive with ⟨heq, hwhat⟩ | ⟨-, hold⟩
    · obtain ⟨rfl, rfl⟩ := Prod.mk.inj heq
      obtain ⟨rfl, -⟩ := Prod.mk.inj hwhat
      exact h id index op _ hact
    · exact h id index op p hold

def Idle (ops : Operations σ α ρ κ) (s : Stepwise σ α ρ) (k : κ) : Prop :=
  ∀ place op p, s.active place = some (op, p) → ops.key op = k → ops.reads op

/-- An operation begins only while those under way on its key read, as it does itself, or while
there are none. -/
def NoConflict (ops : Operations σ α ρ κ) (s : Stepwise σ α ρ) : Event α → Prop
  | .begin id index => ∀ calls op, s.service.calls id = some calls → calls[index]? = some op →
      ∀ place op' p, s.active place = some (op', p) → ops.key op' = ops.key op →
        ops.reads op ∧ ops.reads op'
  | _ => True

/-- What the rest of an operation will do is what the operation does to the state of a service
that performs its operations at once. -/
structure Expected (ops : Operations σ α ρ κ) (view : σ → κ → ε) (s t : σ) (op : α)
    (p : Program σ ρ) : Prop where
  within : p.Local view (ops.key op)
  quiet : ops.reads op → p.Quiet view
  state : view (p.alone s).1 (ops.key op) = view (ops.perform t op).1 (ops.key op)
  reply : (p.alone s).2 = (ops.perform t op).2

/-- A service whose operations are performed at once, when they return. -/
structure Explains (ops : Operations σ α ρ κ) (view : σ → κ → ε) (s : Stepwise σ α ρ)
    (x : Service σ α ρ) : Prop where
  calls : x.calls = s.service.calls
  replies : x.replies = s.service.replies
  log : x.log = s.service.log
  idle : ∀ k, Idle ops s k → view s.service.state k = view x.state k
  active : ∀ place op p, s.active place = some (op, p) →
    Expected ops view s.service.state x.state op p
  apart : ∀ place place' op op' p p', s.active place = some (op, p) →
    s.active place' = some (op', p') → place ≠ place' → ops.key op = ops.key op' →
      ops.reads op ∧ ops.reads op'

variable {x : Service σ α ρ}

theorem Expected.congr_left {s s' t : σ} {op : α} (h : Expected ops view s t op p)
    (hsame : view s' (ops.key op) = view s (ops.key op)) : Expected ops view s' t op p := by
  obtain ⟨hstate, hreply⟩ := h.within.congr hsame
  exact { h with state := hstate.trans h.state, reply := hreply.trans h.reply }

theorem Expected.congr_right {s t t' : σ} {op : α} (h : Expected ops view s t op p)
    (hkept : ops.WellKept view) (hsame : view t (ops.key op) = view t' (ops.key op)) :
    Expected ops view s t' op p := by
  obtain ⟨hstate, hreply⟩ := (hkept.within op).congr hsame
  exact { h with state := h.state.trans hstate, reply := h.reply.trans hreply }

theorem explains_start (t : σ) :
    Explains ops view ⟨.start t, fun _ => none⟩ (.start t : Service σ α ρ) where
  calls := rfl
  replies := rfl
  log := rfl
  idle _ _ := rfl
  active := by simp
  apart := by simp

theorem Explains.issue (h : Explains ops view s x) (id : ℕ) (calls : List α) :
    Explains ops view (s.issue id calls) (x.issue id calls) := by
  refine { h with calls := ?_ }
  rw [Service.issue, h.calls]
  rfl

theorem Explains.begin (h : Explains ops view s x) (hkept : ops.WellKept view) {place : ℕ × ℕ}
    {op : α} (hnew : s.active place = none)
    (hconflict : ∀ place' op' p, s.active place' = some (op', p) → ops.key op' = ops.key op →
      ops.reads op ∧ ops.reads op') : Explains ops view (s.enter place op (ops.program op)) x := by
  have hidle : Idle ops s (ops.key op) :=
    fun place' op' p hactive hkey => (hconflict place' op' p hactive hkey).2
  obtain ⟨hstate, hreply⟩ := (hkept.within op).congr (h.idle _ hidle)
  refine { h with idle := ?_, active := ?_, apart := ?_ }
  · intro k hk
    refine h.idle k (fun place' op' p hactive => hk place' op' p ?_)
    have hne : place' ≠ place := by
      rintro rfl
      simp [hnew] at hactive
    exact (Function.update_of_ne hne _ _).trans hactive
  · intro place' op' p hactive
    rcases update_eq_some_cases hactive with ⟨-, hwhat⟩ | ⟨-, hold⟩
    · obtain ⟨rfl, rfl⟩ := Prod.mk.inj hwhat
      exact ⟨hkept.within op', hkept.quiet op', hstate, hreply⟩
    · exact h.active place' op' p hold
  · intro place₁ place₂ op₁ op₂ p₁ p₂ h₁ h₂ hne hkey
    rcases update_eq_some_cases h₁ with ⟨heq₁, hwhat₁⟩ | ⟨-, hold₁⟩
    · obtain ⟨rfl, -⟩ := Prod.mk.inj hwhat₁
      rcases update_eq_some_cases h₂ with ⟨heq₂, -⟩ | ⟨-, hold₂⟩
      · exact absurd (heq₁.trans heq₂.symm) hne
      · exact hconflict place₂ op₂ p₂ hold₂ hkey.symm
    · rcases update_eq_some_cases h₂ with ⟨-, hwhat₂⟩ | ⟨-, hold₂⟩
      · obtain ⟨rfl, -⟩ := Prod.mk.inj hwhat₂
        exact (hconflict place₁ op₁ p₁ hold₁ hkey).symm
      · exact h.apart place₁ place₂ op₁ op₂ p₁ p₂ hold₁ hold₂ hne hkey

/-- A step is seen under the key of its operation only, and there by no other operation. -/
theorem Explains.act (h : Explains ops view s x) {place : ℕ × ℕ} {op : α} {effect : σ → σ}
    {next : σ → Program σ ρ} (hactive : s.active place = some (op, .act effect next)) :
    Explains ops view ((s.change effect).enter place op (next s.service.state)) x := by
  obtain ⟨⟨hlocal, hrest⟩, hquiet, hstate, hreply⟩ := h.active place op _ hactive
  have hops : ∀ place' op' p', ((s.change effect).enter place op (next s.service.state)).active
      place' = some (op', p') → ∃ p, s.active place' = some (op', p) := by
    intro place' op' p' hactive'
    rcases update_eq_some_cases hactive' with ⟨rfl, hwhat⟩ | ⟨-, hold⟩
    · obtain ⟨rfl, -⟩ := Prod.mk.inj hwhat
      exact ⟨_, hactive⟩
    · exact ⟨p', hold⟩
  have hsame : ∀ k, (k = ops.key op → ops.reads op) →
      view (effect s.service.state) k = view s.service.state k := by
    intro k hk
    rcases eq_or_ne k (ops.key op) with rfl | hne
    · exact (hquiet (hk rfl)).1 _ _
    · exact hlocal.other _ k hne
  refine { h with idle := ?_, active := ?_, apart := ?_ }
  · intro k hk
    refine (hsame k ?_).trans (h.idle k ?_)
    · rintro rfl
      exact hk place op _ (Function.update_self _ _ _) rfl
    · intro place' op' p' hactive' hkey
      rcases eq_or_ne place' place with rfl | hne
      · obtain ⟨rfl, -⟩ := Prod.mk.inj (Option.some.inj (hactive.symm.trans hactive'))
        exact hk place' op _ (Function.update_self _ _ _) hkey
      · exact hk place' op' p' ((Function.update_of_ne hne _ _).trans hactive') hkey
  · intro place' op' p' hactive'
    rcases update_eq_some_cases hactive' with ⟨-, hwhat⟩ | ⟨hne, hold⟩
    · obtain ⟨rfl, rfl⟩ := Prod.mk.inj hwhat
      exact ⟨hrest _, fun hreads => (hquiet hreads).2 _, hstate, hreply⟩
    · refine (h.active place' op' p' hold).congr_left (hsame _ ?_)
      intro hkey
      exact (h.apart place' place op' op _ _ hold hactive hne hkey).2
  · intro place₁ place₂ op₁ op₂ p₁ p₂ h₁ h₂ hne hkey
    obtain ⟨p₁', hold₁⟩ := hops place₁ op₁ p₁ h₁
    obtain ⟨p₂', hold₂⟩ := hops place₂ op₂ p₂ h₂
    exact h.apart place₁ place₂ op₁ op₂ p₁' p₂' hold₁ hold₂ hne hkey

theorem Explains.leave (h : Explains ops view s x) (hkept : ops.WellKept view) {e : Entry α}
    {reply : ρ} (hactive : s.active e.key = some (e.op, .done reply)) :
    Explains ops view (s.leave e reply) (x.perform ops.perform e) := by
  obtain ⟨-, -, hstate, hreply⟩ := h.active e.key e.op _ hactive
  have hold : ∀ place op p, (s.leave e reply).active place = some (op, p) →
      place ≠ e.key ∧ s.active place = some (op, p) := by
    intro place op p hactive'
    have hne : place ≠ e.key := by
      rintro rfl
      simp [Stepwise.leave] at hactive'
    exact ⟨hne, (Function.update_of_ne hne _ _).symm.trans hactive'⟩
  constructor
  · exact h.calls
  · rw [Service.perform, h.replies, ← hreply]
    rfl
  · rw [Service.perform, h.log]
    rfl
  · intro k hk
    rcases eq_or_ne k (ops.key e.op) with rfl | hne
    · exact hstate
    · refine (h.idle k ?_).trans ((hkept.within e.op).other x.state hne).symm
      intro place op p hactive' hkey
      refine hk place op p ((Function.update_of_ne ?_ _ _).trans hactive') hkey
      rintro rfl
      obtain ⟨rfl, -⟩ := Prod.mk.inj (Option.some.inj (hactive.symm.trans hactive'))
      exact hne hkey.symm
  · intro place op p hactive'
    obtain ⟨hne, hactive'⟩ := hold place op p hactive'
    refine (h.active place op p hactive').congr_right hkept ?_
    rcases eq_or_ne (ops.key op) (ops.key e.op) with hkey | hkey
    · have hreads := (h.apart place e.key op e.op _ _ hactive' hactive hne hkey).2
      exact ((hkept.quiet e.op hreads).alone x.state _).symm
    · exact ((hkept.within e.op).other x.state hkey).symm
  · intro place₁ place₂ op₁ op₂ p₁ p₂ h₁ h₂ hne hkey
    exact h.apart place₁ place₂ op₁ op₂ p₁ p₂ (hold place₁ op₁ p₁ h₁).2 (hold place₂ op₂ p₂ h₂).2
      hne hkey

/-- The event of a service that performs its operations at once. -/
def Event.whole : Event α → CompositeCalls.Event α
  | .call id calls => .call id calls
  | .begin id index | .act id index => .perform id index

/-- What one event does is explained by nothing or by one event of the service that performs its
operations at once. -/
theorem Explains.step {lane : α → ι} (h : Explains ops view s x)
    (hkept : ops.WellKept view) (hsound : Sound lane s) {event : Event α}
    (hn : NoConflict ops s event) (hs : AtomicSteps.step ops lane s event = some s') :
    Explains ops view s' x ∨ ∃ x', CompositeCalls.step ops.perform lane x event.whole = some x' ∧
      Explains ops view s' x' := by
  rcases step_cases hs with ⟨id, calls, rfl, hnew, rfl⟩ |
    ⟨id, index, calls, op, rfl, hcalls, hop, -, hnew, -, rfl⟩ |
    ⟨id, index, op, reply, rfl, hactive, rfl⟩ | ⟨id, index, op, effect, next, -, hactive, rfl⟩
  · rw [← h.calls] at hnew
    exact .inr ⟨_, CompositeCalls.step_call hnew calls, h.issue id calls⟩
  · exact .inl (h.begin hkept hnew (hn calls op hcalls hop))
  · obtain ⟨calls, hcalls, hop, hreply, hturn⟩ := hsound id index op _ hactive
    refine .inr ⟨_, ?_, h.leave hkept hactive⟩
    rw [← h.calls] at hcalls
    rw [← h.replies] at hreply
    refine CompositeCalls.step_perform hcalls hop hreply ?_
    rwa [Service.InTurn, h.replies]
  · exact .inl (h.act hactive)

end HCache.AtomicSteps
