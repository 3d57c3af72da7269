import HCache.CppServerHistories

/-!
# What the sharded C++ server answers

A request for one key is answered as the API answers it at one moment, a list by what each
core has held at one moment; and whatever is under way, a request that has arrived can be
answered.
-/
namespace HCache.CppServerAnswers
open Std OrderedMaps KeyPartitions SequentialMachines InterleavedSystems CompositeCalls
open CppSingleThreadStorage CppShardedStorage CppHttpHandlers CppServerSteps CppScoreWidths
  CppServerHistories

variable {smp : Smp} {hash : Fbstring → UInt32} {order : IterationOrder Fbstring}

variable {api : Fbstring → CppSingleThreadStorage.Entry} {s : Server smp}
  {log : List (CompositeCalls.Entry (CoreOp smp hash))} {id : ℕ} {origin : Fin smp.count}

/-- What the API holds after a log. -/
def apiAfter (api : Fbstring → CppSingleThreadStorage.Entry)
    (log : List (CompositeCalls.Entry (CoreOp smp hash))) :
    Fbstring → CppSingleThreadStorage.Entry :=
  final apiPerform api (log.map CompositeCalls.Entry.op)

def Reaches (log earlier : List (CompositeCalls.Entry (CoreOp smp hash))) (id : ℕ) : Prop :=
  ∃ e later, log = earlier ++ e :: later ∧ e.call = id

/-- The response is that of the storage's API at one moment. -/
def AnsweredAtOnce (order : IterationOrder Fbstring) (api : Fbstring → CppSingleThreadStorage.Entry)
    (during : List (CompositeCalls.Entry (CoreOp smp hash)) → Prop) (req : Request)
    (response : Response) : Prop :=
  ∃ moment, during moment ∧ response = (apiHandle order .badRequest (apiAfter api moment) req).2

/-- The response has what each core held at one moment, every key once, and is a 404 when
that is nothing. -/
def AnsweredByCores (hash : Fbstring → UInt32) (api : Fbstring → CppSingleThreadStorage.Entry)
    (during : List (CompositeCalls.Entry (CoreOp smp hash)) → Prop) (keys : KeySet)
    (response : Response) : Prop :=
  ∃ (moment : Fin smp.count → List (CompositeCalls.Entry (CoreOp smp hash))) (kvs : List KeyValue),
    (∀ core, during (moment core)) ∧
    response = (if kvs ≠ [] then ⟨.ok, .keyValues kvs⟩ else .notFound) ∧
    (kvs.map KeyValue.key).Nodup ∧
    ∀ kv, kv ∈ kvs ↔ kv.key ∈ keys.keys ∧
      (apiAfter api (moment (ShardedStorage.getCpu smp hash kv.key)) kv.key).value? = some kv.value

/-- Each reply comes from the moment at which its operation was performed. -/
theorem exists_moment (h : Linearizes hash order api s log) {req : Request} {i : ℕ} {r : Reply}
    {call : CoreOp smp hash} (hreq : s.requests id = some (origin, req))
    (hcall : (callsOf hash order req)[i]? = some call)
    (hr : ((id, i), r) ∈ answers apiPerform api log) :
    ∃ earlier, Reaches log earlier id ∧ r = (apiExec (apiAfter api earlier) call.op).2 := by
  obtain ⟨earlier, e, later, hlog, hkey, hreply⟩ := exists_of_mem_answers hr
  obtain ⟨rfl, rfl⟩ := Prod.mk.inj hkey
  obtain ⟨origin', req', hreq', hop⟩ := h.requests e (by simp [hlog])
  obtain ⟨rfl, rfl⟩ := Prod.mk.inj (Option.some.inj (hreq.symm.trans hreq'))
  obtain rfl := Option.some.inj (hcall.symm.trans hop)
  exact ⟨earlier, ⟨e, later, hlog, rfl⟩, hreply⟩

private theorem answeredAtOnce_of_linearizes (h : Linearizes hash order api s log) {req : Request}
    {response : Response} {op : StorageOp} (hreq : s.requests id = some (origin, req))
    (hresponse : s.responses id = some response) (hlist : ∀ keys, req ≠ .list keys)
    (hop : req.operations = [op]) :
    AnsweredAtOnce order api (fun earlier => Reaches log earlier id) req response := by
  obtain ⟨origin', req', replies, hreq', hr, hlength, hreplies⟩ := h.responses id response hresponse
  obtain ⟨rfl, rfl⟩ := Prod.mk.inj (Option.some.inj (hreq.symm.trans hreq'))
  have hops : (callsOf hash order req : List (CoreOp smp hash)).map CoreOp.op = req.operations :=
    operations_calls hlist
  rw [hop] at hops
  obtain ⟨call, hcalls, hcallop⟩ := List.map_eq_singleton_iff.mp hops
  have hcallsOf : callsOf hash order req = [call] := hcalls
  rw [hcallsOf, List.length_singleton] at hlength
  obtain ⟨r, rfl⟩ := List.length_eq_one_iff.mp hlength
  obtain ⟨earlier, hreaches, hreply⟩ :=
    exists_moment h hreq (by rw [hcallsOf]; rfl) (hreplies 0 r rfl)
  refine ⟨earlier, hreaches, ?_⟩
  rw [hr, hreply, hcallop, apiHandle, hop]
  rfl

private theorem answeredByCores_of_linearizes (h : Linearizes hash order api s log) {keys : KeySet}
    {response : Response} (hreq : s.requests id = some (origin, .list keys))
    (hresponse : s.responses id = some response) :
    AnsweredByCores hash api (fun earlier => Reaches log earlier id) keys response := by
  obtain ⟨origin', req', replies, hreq', hr, hlength, hreplies⟩ := h.responses id response hresponse
  obtain ⟨rfl, rfl⟩ := Prod.mk.inj (Option.some.inj (hreq.symm.trans hreq'))
  rw [callsOf_list, listKeys, List.length_map, List.length_finRange] at hlength
  have hmoment : ∀ core : Fin smp.count, ∃ earlier, Reaches log earlier id ∧
      replies[core.val]? = some (.keyValues
      ((bucketBy (ShardedStorage.getCpu smp hash) keys.keys core).filterMap
        (fun key => (apiAfter api earlier key).value?.map (fun value => ⟨key, value⟩)))) := by
    intro core
    have hlt : core.val < replies.length := by
      rw [hlength]
      exact core.isLt
    have hcall : (callsOf hash order (.list keys) : List (CoreOp smp hash))[core.val]? =
        some ((listKeys smp hash keys).get ⟨core.val, by simp [listKeys]⟩) := by
      simp [callsOf_list, listKeys]
    obtain ⟨earlier, hreaches, hreply⟩ :=
      exists_moment h hreq hcall (hreplies _ _ (List.getElem?_eq_getElem hlt))
    refine ⟨earlier, hreaches, ?_⟩
    rw [List.getElem?_eq_getElem hlt, hreply]
    simp [listKeys, apiExec]
  choose moment hreaches hreply using hmoment
  have hall : replies = (List.finRange smp.count).map (fun core => .keyValues
      ((bucketBy (ShardedStorage.getCpu smp hash) keys.keys core).filterMap
        (fun key => (apiAfter api (moment core) key).value?.map (fun value => ⟨key, value⟩)))) := by
    apply List.ext_getElem?
    intro i
    by_cases hi : i < smp.count
    · rw [hreply ⟨i, hi⟩]
      simp [hi]
    · rw [List.getElem?_eq_none (by omega), List.getElem?_eq_none (by simpa using hi)]
  refine ⟨moment, replies.flatMap keyValuesOf, hreaches, hr, ?_, ?_⟩
  · rw [hall, List.flatMap_map]
    refine nodup_flatMap_bucketBy _ (List.nodup_finRange _) keys.nodup ?_
    rintro core key kv hkv
    obtain ⟨value, -, rfl⟩ := Option.map_eq_some_iff.mp hkv
    rfl
  · rintro ⟨key, value⟩
    rw [hall, List.flatMap_map]
    refine (mem_flatMap_bucketBy _ (fun _ => List.mem_finRange _)).trans ?_
    constructor
    · rintro ⟨k, hk, hkv⟩
      obtain ⟨v, hv, he⟩ := Option.map_eq_some_iff.mp hkv
      obtain ⟨rfl, rfl⟩ := KeyValue.mk.inj he
      exact ⟨hk, hv⟩
    · rintro ⟨hk, hv⟩
      exact ⟨key, hk, by rw [hv]; rfl⟩

/-- A moment of a run between the arrival of a request and its answer. -/
def During (hash : Fbstring → UInt32) (order : IterationOrder Fbstring) (peers : ShardedStorage smp)
    (events : List (Event smp)) (logs : ℕ → List (CompositeCalls.Entry (CoreOp smp hash))) (id : ℕ)
    (moment : List (CompositeCalls.Entry (CoreOp smp hash))) : Prop :=
  ∀ i u, run (CppServerSteps.step hash order) (.start peers) (events.take i) = some u →
    (u.requests id = none → logs i <+: moment) ∧ (u.responses id ≠ none → moment <+: logs i)

variable {peers : ShardedStorage smp} {api : Fbstring → CppSingleThreadStorage.Entry}
  {events : List (Event smp)} {logs : ℕ → List (CompositeCalls.Entry (CoreOp smp hash))}
  {s : Server smp} {id : ℕ}

private theorem prefix_of_notMem {α : Type} {before log later : List α} {a : α}
    (h : log <+: before ++ a :: later) (hnot : a ∉ log) : log <+: before := by
  rcases List.prefix_or_prefix_of_prefix h (List.prefix_append before (a :: later)) with hp | hp
  · exact hp
  · obtain ⟨rest, rfl⟩ := hp
    rw [List.prefix_append_right_inj] at h
    cases rest with
    | nil => simp
    | cons b rest =>
      obtain ⟨rfl, -⟩ := List.cons_prefix_cons.mp h
      simp at hnot

/-- The operations of a request are performed between its arrival and its answer. -/
theorem during_of_reaches (h : Logged hash order api peers events logs)
    (hrun : run (CppServerSteps.step hash order) (.start peers) events = some s)
    {moment : List (CompositeCalls.Entry (CoreOp smp hash))}
    (hreaches : Reaches (logs events.length) moment id) :
    During hash order peers events logs id moment := by
  obtain ⟨e, later, hlog, rfl⟩ := hreaches
  have hmoment : moment <+: logs events.length := hlog ▸ List.prefix_append _ _
  have he : e ∈ logs events.length := by simp [hlog]
  have hlast : run (CppServerSteps.step hash order) (.start peers)
      (events.take events.length) = some s := by
    rw [List.take_length]
    exact hrun
  have hnodup : (moment ++ e :: later).Nodup :=
    hlog ▸ (h.linearizes events.length s hlast).once.of_map _
  intro i u hu
  rcases Nat.le_total i events.length with hi | hi
  · refine ⟨fun hnew => ?_, fun hanswered => ?_⟩
    · have hnot : e ∉ logs i := fun hin => h.not_before hu hnew hin rfl
      exact prefix_of_notMem (hlog ▸ h.grows i _ hi) hnot
    · have hin := h.mem_of_answered hi hu hlast hanswered he
      rcases List.prefix_or_prefix_of_prefix (h.grows i _ hi) hmoment with hp | hp
      · exact absurd rfl ((List.nodup_append.mp hnodup).2.2 e (hp.subset hin) e (by simp))
      · exact hp
  · rw [List.take_of_length_le hi] at hu
    obtain rfl := Option.some.inj (hrun.symm.trans hu)
    exact ⟨fun hnew => absurd rfl (h.not_before hlast hnew he),
      fun _ => hmoment.trans (h.grows _ i hi)⟩

/-- Along every run each request for one key is answered as the API of the storage answers it at
one moment between its arrival and its answer, and each list by what the cores have held, each at
one such moment. -/
theorem server_answers (hash : Fbstring → UInt32) (order : IterationOrder Fbstring)
    (peers : ShardedStorage smp) (api : Fbstring → CppSingleThreadStorage.Entry)
    (hholds : Holds hash peers api) (events : List (Event smp)) (s : Server smp)
    (hrun : run (CppServerSteps.step hash order) (.start peers) events = some s) :
    ∃ logs, Logged hash order api peers events logs ∧
      ∀ id origin req response, s.requests id = some (origin, req) →
        s.responses id = some response →
        ((∀ keys, req ≠ .list keys) → ∀ op, req.operations = [op] →
          AnsweredAtOnce order api (During hash order peers events logs id) req response) ∧
        ∀ keys, req = .list keys →
          AnsweredByCores hash api (During hash order peers events logs id) keys response := by
  obtain ⟨logs, h⟩ := exists_logged hholds hrun
  have hlinear := h.linearizes events.length s (by rwa [List.take_length])
  refine ⟨logs, h, fun id origin req response hreq hresponse => ⟨fun hlist op hop => ?_, ?_⟩⟩
  · obtain ⟨moment, hreaches, hr⟩ := answeredAtOnce_of_linearizes hlinear hreq hresponse hlist hop
    exact ⟨moment, during_of_reaches h hrun hreaches, hr⟩
  · rintro keys rfl
    obtain ⟨moment, kvs, hreaches, hr⟩ := answeredByCores_of_linearizes hlinear hreq hresponse
    exact ⟨moment, kvs, fun core => during_of_reaches h hrun (hreaches core), hr⟩

/-- The value that one core is adding is found by the query that arrives afterwards. -/
theorem server_answers_query :
    ∃ (logs : ℕ → List (CompositeCalls.Entry (CoreOp twoCores secondCore)))
    (moment : List (CompositeCalls.Entry (CoreOp twoCores secondCore))),
    logs 5 <+: moment ∧ moment <+: logs 8 ∧ moment ≠ [] ∧
    (⟨.ok, .text [98]⟩ : Response) = (apiHandle (.choice Fbstring) .badRequest
      (apiAfter (fun _ => .absent) moment) (.query [97])).2 := by
  obtain ⟨s, hs, hadded, hnew, s', hs', hreq, hresponse⟩ := run_addEvents (.choice Fbstring)
  have hrun := run_append_eq_some.mpr ⟨s, hs, hs'⟩
  obtain ⟨logs, h, hanswers⟩ := server_answers secondCore (.choice Fbstring) _ _
    (holds_new twoCores secondCore) (addEvents ++ queryEvents) s' hrun
  obtain ⟨moment, hduring, hr⟩ := (hanswers 1 1 (.query [97]) _ hreq hresponse).1 (by simp) _ rfl
  refine ⟨logs, moment, (hduring 5 s hs).1 hnew, (hduring 8 s' hrun).2 (by simp [hresponse]), ?_,
    hr⟩
  rintro rfl
  exact absurd hr (by decide)

/-- Steps of the system, no requests that arrive. -/
def Inner : CppServerSteps.Event smp → Prop
  | .arrive _ _ _ => False
  | _ => True

/-- Some steps lead from one state to another; nothing that a request has got is lost. -/
structure Onward (hash : Fbstring → UInt32) (order : IterationOrder Fbstring) (s : Server smp)
    (x : Service (ShardedStorage smp) (CoreOp smp hash) Reply) (s' : Server smp)
    (x' : Service (ShardedStorage smp) (CoreOp smp hash) Reply) : Prop where
  run : ∃ events, (∀ event ∈ events, Inner event) ∧
    InterleavedSystems.run (CppServerSteps.step hash order) s events = some s'
  refines : Refines hash order s' x'
  requests : ∀ id arrival, s.requests id = some arrival → s'.requests id = some arrival
  issued : ∀ id, s.issued id ≤ s'.issued id
  performed : ∀ key, (x.replies key).isSome → (x'.replies key).isSome
  back : ∀ key, (s.replies key).isSome → (s'.replies key).isSome

variable {s s' s'' : Server smp} {x x' x'' : Service (ShardedStorage smp) (CoreOp smp hash) Reply}

theorem Onward.refl (h : Refines hash order s x) : Onward hash order s x s x :=
  ⟨⟨[], by simp, rfl⟩, h, fun _ _ => id, fun _ => le_rfl, fun _ => id, fun _ => id⟩

theorem Onward.trans (h : Onward hash order s x s' x') (h' : Onward hash order s' x' s'' x'') :
    Onward hash order s x s'' x'' := by
  obtain ⟨events, hinner, hr⟩ := h.run
  obtain ⟨events', hinner', hr'⟩ := h'.run
  have hall : ∀ event ∈ events ++ events', Inner event := fun event he =>
    (List.mem_append.mp he).elim (hinner event) (hinner' event)
  refine ⟨⟨events ++ events', hall, run_append_eq_some.mpr ⟨s', hr, hr'⟩⟩, h'.refines,
    ?_, ?_, ?_, ?_⟩
  · exact fun id arrival harrival => h'.requests id arrival (h.requests id arrival harrival)
  · exact fun id => (h.issued id).trans (h'.issued id)
  · exact fun key hkey => h'.performed key (h.performed key hkey)
  · exact fun key hkey => h'.back key (h.back key hkey)

theorem isSome_perform (e : CompositeCalls.Entry (CoreOp smp hash)) {key : ℕ × ℕ}
    (h : (x.replies key).isSome) :
    ((x.perform perform e).replies key).isSome := by
  rw [Service.perform_replies]
  split
  · rfl
  · exact h

theorem isSome_update {f : ℕ × ℕ → Option Reply} {key key' : ℕ × ℕ} {reply : Reply}
    (h : (f key').isSome) :
    (Function.update f key (some reply) key').isSome := by
  rw [Function.update_apply]
  split
  · rfl
  · exact h

private theorem le_update_succ (f : ℕ → ℕ) (id i : ℕ) :
    f i ≤ Function.update f id (f id + 1) i := by
  rw [Function.update_apply]
  split
  · next hi => rw [hi]; exact Nat.le_succ _
  · exact le_rfl

variable {id : ℕ} {origin : Fin smp.count} {req : Request}

private theorem onward_issue (h : Refines hash order s x)
    (hreq : s.requests id = some (origin, req))
    (hlt : s.issued id < (callsOf hash order req : List (CoreOp smp hash)).length) :
    ∃ s' x', Onward hash order s x s' x' ∧ s'.issued id = s.issued id + 1 := by
  have hcall := List.getElem?_eq_getElem hlt
  by_cases hcore : ((callsOf hash order req : List (CoreOp smp hash))[s.issued id]).core = origin
  · refine ⟨_, _,
      ⟨⟨[.issue id], by simp [Inner], run_singleton.mpr ?_⟩, h.callHere hreq hcall hcore,
      fun _ _ h => h, le_update_succ _ _, fun _ => isSome_perform _, fun _ => isSome_update⟩,
      Function.update_self _ _ _⟩
    simp only [CppServerSteps.step, hreq, hcall, if_pos hcore]
  · refine ⟨_, x,
      ⟨⟨[.issue id], by simp [Inner], run_singleton.mpr ?_⟩, h.callThere hreq hcall hcore,
      fun _ _ h => h, le_update_succ _ _, fun _ h => h, fun _ h => h⟩, Function.update_self _ _ _⟩
    simp only [CppServerSteps.step, hreq, hcall, if_neg hcore]

private theorem onward_issue_all (h : Refines hash order s x)
    (hreq : s.requests id = some (origin, req)) :
    ∃ s' x', Onward hash order s x s' x' ∧
      (callsOf hash order req : List (CoreOp smp hash)).length ≤ s'.issued id := by
  have hrun : ∀ n s x, Refines hash order s x → s.requests id = some (origin, req) →
      (callsOf hash order req : List (CoreOp smp hash)).length - s.issued id ≤ n →
      ∃ s' x', Onward hash order s x s' x' ∧
        (callsOf hash order req : List (CoreOp smp hash)).length ≤ s'.issued id := by
    intro n
    induction n with
    | zero =>
      intro s x h _ hn
      exact ⟨s, x, .refl h, by omega⟩
    | succ n ih =>
      intro s x h hreq hn
      by_cases hlt : s.issued id < (callsOf hash order req : List (CoreOp smp hash)).length
      · obtain ⟨s₁, x₁, h₁, hissued⟩ := onward_issue h hreq hlt
        obtain ⟨s', x', h', hall⟩ := ih s₁ x₁ h₁.refines (h₁.requests _ _ hreq) (by omega)
        exact ⟨s', x', h₁.trans h', hall⟩
      · exact ⟨s, x, .refl h, by omega⟩
  exact hrun _ s x h hreq le_rfl

private theorem onward_run (h : Refines hash order s x) {src dst : Fin smp.count} {msg : Message}
    (hmsg : msg ∈ s.messages (src, dst)) :
    ∃ s' x', Onward hash order s x s' x' ∧ (x'.replies (msg.id, msg.index)).isSome := by
  generalize hqueue : s.messages (src, dst) = queue at hmsg
  induction queue generalizing s x with
  | nil => simp at hmsg
  | cons message rest ih =>
    obtain ⟨-, -, -, req, call, hreq, hcall, hcore, hop⟩ :=
      h.message src dst message (by simp [hqueue])
    have hone : Onward hash order s x (s.receive src dst message rest)
        (x.perform perform ⟨message.id, message.index, call⟩) := by
      refine ⟨⟨[.run src dst], by simp [Inner], run_singleton.mpr ?_⟩,
        h.receive hqueue hreq hcall hcore hop, fun _ _ h => h, fun _ => le_rfl,
        fun _ => isSome_perform _, fun _ h => h⟩
      simp only [CppServerSteps.step, hqueue]
    rcases List.mem_cons.mp hmsg with rfl | hmsg
    · refine ⟨_, _, hone, ?_⟩
      simp [Service.perform_replies, CompositeCalls.Entry.key]
    · obtain ⟨s', x', h', hperformed⟩ := ih hone.refines (Function.update_self _ _ _) hmsg
      exact ⟨s', x', hone.trans h', hperformed⟩

private theorem onward_perform (h : Refines hash order s x)
    (hreq : s.requests id = some (origin, req)) {count : ℕ}
    (hcount : count ≤ (callsOf hash order req : List (CoreOp smp hash)).length)
    (hissued : count ≤ s.issued id) :
    ∃ s' x', Onward hash order s x s' x' ∧ ∀ i < count, (x'.replies (id, i)).isSome := by
  induction count with
  | zero => exact ⟨s, x, .refl h, by simp⟩
  | succ count ih =>
    obtain ⟨s₁, x₁, h₁, hall⟩ := ih (by omega) (by omega)
    have hone : ∃ s' x', Onward hash order s₁ x₁ s' x' ∧ (x'.replies (id, count)).isSome := by
      by_cases hnone : x₁.replies (id, count) = none
      · have hlt : count < s₁.issued id := Nat.lt_of_lt_of_le hissued (h₁.issued id)
        obtain ⟨msg, hmsg, rfl, rfl⟩ :=
          h₁.refines.queued id origin req count _ (h₁.requests _ _ hreq) hlt
          (List.getElem?_eq_getElem hcount) hnone
        exact onward_run h₁.refines hmsg
      · exact ⟨s₁, x₁, .refl h₁.refines, Option.isSome_iff_ne_none.mpr hnone⟩
    obtain ⟨s', x', h', hlast⟩ := hone
    refine ⟨s', x', h₁.trans h', ?_⟩
    intro i hi
    rcases Nat.lt_succ_iff_lt_or_eq.mp hi with hlt | rfl
    · exact h'.performed _ (hall i hlt)
    · exact hlast

private theorem onward_resolve (h : Refines hash order s x) {count : ℕ}
    (hall : ∀ i < count, (x.replies (id, i)).isSome) :
    ∃ s', Onward hash order s x s' x ∧ ∀ i < count, (s'.replies (id, i)).isSome := by
  induction count with
  | zero => exact ⟨s, .refl h, by simp⟩
  | succ count ih =>
    obtain ⟨s₁, h₁, hback⟩ := ih (fun i hi => hall i (Nat.lt_succ_of_lt hi))
    have hone : ∃ s', Onward hash order s₁ x s' x ∧ (s'.replies (id, count)).isSome := by
      have hsome := hall count (Nat.lt_succ_self count)
      rw [h₁.refines.replied, Option.isSome_or, Bool.or_eq_true] at hsome
      rcases hsome with hback | hreturning
      · exact ⟨s₁, .refl h₁.refines, hback⟩
      · obtain ⟨reply, hreply⟩ := Option.isSome_iff_exists.mp hreturning
        refine ⟨_,
        ⟨⟨[.resolve id count], by simp [Inner], run_singleton.mpr ?_⟩, h₁.refines.resolve hreply,
        fun _ _ h => h, fun _ => le_rfl, fun _ h => h, fun _ => isSome_update⟩, ?_⟩
        · simp only [CppServerSteps.step, hreply]
        · simp [Server.resolve]
    obtain ⟨s', h', hlast⟩ := hone
    refine ⟨s', h₁.trans h', ?_⟩
    intro i hi
    rcases Nat.lt_succ_iff_lt_or_eq.mp hi with hlt | rfl
    · exact h'.back _ (hback i hlt)
    · exact hlast

private theorem completes (h : Refines hash order s x) (hreq : s.requests id = some (origin, req)) :
    ∃ events s' response, (∀ event ∈ events, Inner event) ∧
      run (CppServerSteps.step hash order) s events = some s' ∧
      s'.responses id = some response := by
  obtain ⟨s₁, x₁, h₁, hissued⟩ := onward_issue_all h hreq
  have hreq₁ := h₁.requests _ _ hreq
  obtain ⟨s₂, x₂, h₂, hperformed⟩ := onward_perform h₁.refines hreq₁ le_rfl hissued
  obtain ⟨s₃, h₃, hback⟩ := onward_resolve h₂.refines hperformed
  have hreq₃ := h₃.requests _ _ (h₂.requests _ _ hreq₁)
  obtain ⟨events, hinner, hr⟩ := ((h₁.trans h₂).trans h₃).run
  cases hresponse : s₃.responses id with
  | some response => exact ⟨events, s₃, response, hinner, hr, hresponse⟩
  | none =>
    have hrespond : CppServerSteps.step hash order s₃ (.respond id) =
        some (s₃.respond id ((handler smp hash order req).respond
          (resultsOf s₃.replies id (callsOf hash order req : List (CoreOp smp hash)).length))) := by
      simp only [CppServerSteps.step, hreq₃, hresponse, true_and, if_pos hback]
    refine ⟨events ++ [.respond id], _, _, fun event he => ?_,
      run_append_eq_some.mpr ⟨s₃, hr, run_singleton.mpr hrespond⟩, Function.update_self _ _ _⟩
    rcases List.mem_append.mp he with he | he
    · exact hinner event he
    · obtain rfl := List.mem_singleton.mp he
      trivial

/-- In every state of every run each request that has arrived can still be answered, even if no
further ones arrive. -/
theorem server_completes (hash : Fbstring → UInt32) (order : IterationOrder Fbstring)
    (peers : ShardedStorage smp) (events : List (Event smp)) (s : Server smp)
    (hrun : run (CppServerSteps.step hash order) (.start peers) events = some s) (id : ℕ)
    (harrived : s.requests id ≠ none) :
    ∃ later s' response, (∀ event ∈ later, Inner event) ∧
      run (CppServerSteps.step hash order) s later = some s' ∧ s'.responses id = some response := by
  obtain ⟨⟨origin, req⟩, hreq⟩ := Option.ne_none_iff_exists'.mp harrived
  obtain ⟨xs, -, -, hrefines⟩ := run_of_matches (Refines hash order)
    (fun _ _ _ _ h hs => h.step hs) (refines_start peers) hrun
  exact completes (hrefines events.length s (by rwa [List.take_length])) hreq

theorem server_completes_add : ∃ (s s' : Server twoCores) (later : List (Event twoCores))
    (response : Response), s.requests 0 = some (0, .add ⟨[97], [98]⟩) ∧ s.responses 0 = none ∧
      (∀ event ∈ later, Inner event) ∧
      run (CppServerSteps.step secondCore (.choice Fbstring)) s later = some s' ∧
      s'.responses 0 = some response := by
  obtain ⟨s, hs, hreq, hnone⟩ : ∃ s, run (CppServerSteps.step secondCore (.choice Fbstring))
      (.start (ShardedStorage.new twoCores)) (addEvents.take 2) = some s ∧
        s.requests 0 = some (0, .add ⟨[97], [98]⟩) ∧ s.responses 0 = none := ⟨_, rfl, rfl, rfl⟩
  obtain ⟨later, s', response, hinner, hs', hresponse⟩ := server_completes secondCore
    (.choice Fbstring) _ (addEvents.take 2) s hs 0 (by simp [hreq])
  exact ⟨s, s', later, response, hreq, hnone, hinner, hs', hresponse⟩

end HCache.CppServerAnswers
