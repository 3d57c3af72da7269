import HCache.CppScoreWidths
import HCache.CppServerSteps

/-!
# The sharded C++ server behaves as one API

In every interleaving of requests and messages the operations that the cores have performed
form a sequential history of the storage's API: every result is the one that the API gives
in the order of the log, an operation is performed once and for a request that has arrived,
and a request keeps the order of its operations on a core.
-/
namespace HCache.CppServerHistories
open Std OrderedMaps KeyPartitions SequentialMachines InterleavedSystems CompositeCalls
open CppSingleThreadStorage CppShardedStorage CppHttpHandlers CppServerSteps CppScoreWidths

variable {smp : Smp} {hash : Fbstring → UInt32} {order : IterationOrder Fbstring}

def perform (peers : ShardedStorage smp) (call : CoreOp smp hash) : ShardedStorage smp × Reply :=
  invokeOn peers call.core (fun t => t.exec call.op)

def apiPerform (api : Fbstring → CppSingleThreadStorage.Entry) (call : CoreOp smp hash) :
    (Fbstring → CppSingleThreadStorage.Entry) × Reply :=
  apiExec api call.op

private theorem simulates_perform :
    Simulates (@perform smp hash) (@apiPerform smp hash) (fun _ => True) (Holds hash) Eq := by
  have hon : ∀ (peers : ShardedStorage smp) (call : CoreOp smp hash) key op, call.op = .on key op →
      perform peers call = ShardedStorage.execOn hash peers call.core key op := by
    intro peers call key op hop
    have hcore := call.home key (by simp [hop, keysOf])
    rw [execOn_eq_invokeOn, hcore, perform, hop]
    rfl
  have hlist : ∀ (peers : ShardedStorage smp) (call : CoreOp smp hash) keys,
      call.op = .listKeys keys →
      perform peers call = (peers, .keyValues ((peers call.core).listKeys keys)) := by
    intro peers call keys hop
    simp only [perform, invokeOn, hop, SingleThreadStorage.exec, Function.update_eq_self]
  constructor
  · intro peers api call h _
    rw [apiPerform]
    cases hop : call.op with
    | on key op =>
      rw [hon peers call key op hop]
      exact (h.execOn call.core key op).1
    | listKeys keys =>
      rw [hlist peers call keys hop]
      exact h
  · intro peers api call h _
    rw [apiPerform]
    cases hop : call.op with
    | on key op =>
      rw [hon peers call key op hop]
      exact (h.execOn call.core key op).2
    | listKeys keys =>
      rw [hlist peers call keys hop]
      obtain ⟨whole, hsharded, hrel⟩ := h
      have hvalue : ∀ key ∈ keys, (peers call.core).kv[key]? = (api key).value? := by
        intro key hkey
        rw [← call.home key (by simpa [hop, keysOf] using hkey)]
        exact (congrArg Prod.fst (hsharded.covers key)).trans (hrel key).value
      refine congrArg Reply.keyValues (List.filterMap_congr ?_)
      intro key hkey
      rw [hvalue key hkey]

/-- A state of the server and what has been performed for its requests. -/
structure Refines (hash : Fbstring → UInt32) (order : IterationOrder Fbstring) (s : Server smp)
    (x : Service (ShardedStorage smp) (CoreOp smp hash) Reply) : Prop where
  state : x.state = s.peers
  calls : ∀ id, x.calls id = (s.requests id).map (fun arrival => callsOf hash order arrival.2)
  replied : ∀ key, x.replies key = (s.replies key).or (s.returning key)
  back : ∀ key, (s.returning key).isSome → s.replies key = none
  issued : ∀ id i, (x.replies (id, i)).isSome → i < s.issued id
  unissued : ∀ id, s.requests id = none → s.issued id = 0
  message : ∀ src dst, ∀ msg ∈ s.messages (src, dst), src ≠ dst ∧
    x.replies (msg.id, msg.index) = none ∧
    msg.index < s.issued msg.id ∧ ∃ req call, s.requests msg.id = some (src, req) ∧
      (callsOf hash order req : List (CoreOp smp hash))[msg.index]? = some call ∧ call.core = dst ∧
      call.op = msg.op
  inOrder : ∀ queue, (s.messages queue).Pairwise (fun m m' => m.id = m'.id → m.index < m'.index)
  queued : ∀ id origin req i (call : CoreOp smp hash), s.requests id = some (origin, req) →
    i < s.issued id →
    (callsOf hash order req)[i]? = some call → x.replies (id, i) = none →
    ∃ msg ∈ s.messages (origin, call.core), msg.id = id ∧ msg.index = i
  responded : ∀ id response, s.responses id = some response →
    ∃ origin req, s.requests id = some (origin, req) ∧
    (∀ i < (callsOf hash order req : List (CoreOp smp hash)).length, (x.replies (id, i)).isSome) ∧
    response = (handler smp hash order req).respond
      (resultsOf x.replies id (callsOf hash order req : List (CoreOp smp hash)).length)

theorem refines_start (peers : ShardedStorage smp) :
    Refines hash order (Server.start peers) (.start peers) := by
  constructor <;> simp [Server.start, Service.start]

variable {s s' : Server smp} {x : Service (ShardedStorage smp) (CoreOp smp hash) Reply} {id : ℕ}

/-- The operation that a handler issues next has no reply yet. -/
theorem Refines.fresh (h : Refines hash order s x) (id : ℕ) :
    x.replies (id, s.issued id) = none := by
  by_contra hne
  exact absurd (h.issued id _ (Option.isSome_iff_ne_none.mpr hne)) (Nat.lt_irrefl _)

theorem Refines.not_back (h : Refines hash order s x) {key : ℕ × ℕ} (hnone : x.replies key = none) :
    s.replies key = none ∧ s.returning key = none := by
  rw [h.replied] at hnone
  exact Option.or_eq_none_iff.mp hnone

/-- A request with an operation that has no reply has not been answered. -/
theorem Refines.unanswered (h : Refines hash order s x) {origin : Fin smp.count} {req : Request}
    {i : ℕ} {call : CoreOp smp hash} (hreq : s.requests id = some (origin, req))
    (hcall : (callsOf hash order req)[i]? = some call) (hnone : x.replies (id, i) = none) :
    s.responses id = none := by
  rw [Option.eq_none_iff_forall_ne_some]
  intro response hr
  obtain ⟨origin', req', hreq', hall, -⟩ := h.responded id response hr
  obtain ⟨rfl, rfl⟩ := Prod.mk.inj (Option.some.inj (hreq.symm.trans hreq'))
  have hsome := hall i (List.getElem?_eq_some_iff.mp hcall).1
  simp [hnone] at hsome

/-- Performing an operation of a request that has not been answered leaves the answered ones. -/
theorem Refines.responded_perform (h : Refines hash order s x)
    {e : CompositeCalls.Entry (CoreOp smp hash)} (hnone : s.responses e.call = none) :
    ∀ id response, s.responses id = some response → ∃ origin req,
      s.requests id = some (origin, req) ∧
      (∀ i < (callsOf hash order req : List (CoreOp smp hash)).length,
        ((x.perform perform e).replies (id, i)).isSome) ∧
      response = (handler smp hash order req).respond
        (resultsOf (x.perform perform e).replies id
          (callsOf hash order req : List (CoreOp smp hash)).length) := by
  intro id response hr
  obtain ⟨origin, req, hreq, hall, hresponse⟩ := h.responded id response hr
  have hsame : ∀ i, (x.perform perform e).replies (id, i) = x.replies (id, i) := by
    intro i
    rw [Service.perform_replies, if_neg]
    intro hkey
    rw [(Prod.mk.inj hkey).1, hnone] at hr
    simp at hr
  refine ⟨origin, req, hreq, ?_, ?_⟩
  · simpa only [hsame] using hall
  · simpa only [resultsOf, hsame] using hresponse

theorem Refines.arrive (h : Refines hash order s x) (hnew : s.requests id = none)
    (origin : Fin smp.count) (req : Request) :
    Refines hash order (s.arrive id origin req) (x.issue id (callsOf hash order req)) := by
  have hold : ∀ {i arrival}, s.requests i = some arrival →
      (s.arrive id origin req).requests i = some arrival := by
    intro i arrival hi
    have hne : i ≠ id := by
      rintro rfl
      simp [hnew] at hi
    simp only [Server.arrive, Function.update_of_ne hne, hi]
  refine { h with calls := ?_, unissued := ?_, message := ?_, queued := ?_, responded := ?_ }
  · intro i
    rcases eq_or_ne i id with rfl | hne
    · simp [Service.issue, Server.arrive]
    · simp only [Service.issue, Server.arrive, Function.update_of_ne hne]
      exact h.calls i
  · intro i hi
    rcases eq_or_ne i id with rfl | hne
    · simp [Server.arrive] at hi
    · simp only [Server.arrive, Function.update_of_ne hne] at hi
      exact h.unissued i hi
  · intro src dst msg hmsg
    obtain ⟨hne, hnone, hlt, req', call, hreq', hrest⟩ := h.message src dst msg hmsg
    exact ⟨hne, hnone, hlt, req', call, hold hreq', hrest⟩
  · intro i origin' req' j call hreq' hj hcall hnone
    rcases eq_or_ne i id with rfl | hne
    · have hzero : (s.arrive i origin req).issued i = 0 := h.unissued i hnew
      omega
    · simp only [Server.arrive, Function.update_of_ne hne] at hreq'
      exact h.queued i origin' req' j call hreq' hj hcall hnone
  · intro i response hr
    obtain ⟨origin', req', hreq', hrest⟩ := h.responded i response hr
    exact ⟨origin', req', hold hreq', hrest⟩

theorem Refines.callHere (h : Refines hash order s x) {origin : Fin smp.count} {req : Request}
    {call : CoreOp smp hash} (hreq : s.requests id = some (origin, req))
    (hcall : (callsOf hash order req)[s.issued id]? = some call) (hcore : call.core = origin) :
    Refines hash order (s.callHere id origin call.op)
      (x.perform perform ⟨id, s.issued id, call⟩) := by
  have hfresh := h.fresh id
  have hperform : perform x.state call = invokeOn s.peers origin (fun t => t.exec call.op) := by
    rw [perform, h.state, hcore]
  have hissued : ∀ i, s.issued i ≤ (s.callHere id origin call.op).issued i := by
    intro i
    simp only [Server.callHere, Function.update_apply]
    split
    · next hi => rw [hi]; exact Nat.le_succ _
    · exact le_rfl
  constructor
  · exact congrArg Prod.fst hperform
  · exact h.calls
  · intro key
    simp only [Service.perform_replies, Server.callHere, Function.update_apply,
    CompositeCalls.Entry.key, hperform]
    split
    · rfl
    · exact h.replied key
  · intro key hkey
    simp only [Server.callHere, Function.update_apply]
    split
    · next heq =>
      have hnone := (h.not_back (heq ▸ hfresh)).2
      simp only [Server.callHere, hnone] at hkey
      simp at hkey
    · exact h.back key hkey
  · intro i j hj
    rw [Service.perform_replies] at hj
    split at hj
    · next hkey =>
      obtain ⟨rfl, rfl⟩ := Prod.mk.inj hkey
      simp [Server.callHere]
    · exact Nat.lt_of_lt_of_le (h.issued i j hj) (hissued i)
  · intro i hi
    have hne : i ≠ id := by
      rintro rfl
      simp [Server.callHere, hreq] at hi
    simp only [Server.callHere, Function.update_of_ne hne]
    exact h.unissued i hi
  · intro src dst msg hmsg
    obtain ⟨hne, hnone, hlt, hrest⟩ := h.message src dst msg hmsg
    refine ⟨hne, ?_, Nat.lt_of_lt_of_le hlt (hissued _), hrest⟩
    rw [Service.perform_replies, if_neg]
    · exact hnone
    · intro hkey
      obtain ⟨hid, hindex⟩ := Prod.mk.inj hkey
      rw [hid, hindex] at hlt
      exact Nat.lt_irrefl _ hlt
  · exact h.inOrder
  · intro i origin' req' j call' hreq' hj hcall' hnone
    obtain ⟨hkey, hnone⟩ := Service.replies_none_of_perform hnone
    refine h.queued i origin' req' j call' hreq' ?_ hcall' hnone
    rcases eq_or_ne i id with rfl | hne
    · have hj' : j ≠ s.issued i := fun he => hkey (by rw [he]; rfl)
      simp only [Server.callHere, Function.update_self] at hj
      omega
    · simpa only [Server.callHere, Function.update_of_ne hne] using hj
  · exact h.responded_perform (h.unanswered hreq hcall hfresh)

theorem Refines.callThere (h : Refines hash order s x) {origin : Fin smp.count} {req : Request}
    {call : CoreOp smp hash} (hreq : s.requests id = some (origin, req))
    (hcall : (callsOf hash order req)[s.issued id]? = some call) (hcore : call.core ≠ origin) :
    Refines hash order (s.callThere id origin call.core call.op) x := by
  have hfresh := h.fresh id
  have hissued : ∀ i, s.issued i ≤ (s.callThere id origin call.core call.op).issued i := by
    intro i
    simp only [Server.callThere, Function.update_apply]
    split
    · next hi => rw [hi]; exact Nat.le_succ _
    · exact le_rfl
  have hqueue : ∀ queue msg, msg ∈ (s.callThere id origin call.core call.op).messages queue ↔
      msg ∈ s.messages queue ∨
      (queue = (origin, call.core) ∧ msg = ⟨id, s.issued id, call.op⟩) := by
    intro queue msg
    simp only [Server.callThere, Function.update_apply]
    split
    · next hq => simp [hq]
    · next hq => simp [hq]
  refine { h with issued := ?_, unissued := ?_, message := ?_, inOrder := ?_, queued := ?_ }
  · intro i j hj
    exact Nat.lt_of_lt_of_le (h.issued i j hj) (hissued i)
  · intro i hi
    have hne : i ≠ id := by
      rintro rfl
      simp [Server.callThere, hreq] at hi
    simp only [Server.callThere, Function.update_of_ne hne]
    exact h.unissued i hi
  · intro src dst msg hmsg
    rcases (hqueue _ _).mp hmsg with hmsg | ⟨hq, rfl⟩
    · obtain ⟨hne, hnone, hlt, hrest⟩ := h.message src dst msg hmsg
      exact ⟨hne, hnone, Nat.lt_of_lt_of_le hlt (hissued _), hrest⟩
    · obtain ⟨rfl, rfl⟩ := Prod.mk.inj hq
      refine ⟨hcore.symm, hfresh, ?_, req, call, hreq, hcall, rfl, rfl⟩
      simp [Server.callThere]
  · intro queue
    rcases eq_or_ne queue (origin, call.core) with rfl | hq
    · simp only [Server.callThere, Function.update_self]
      refine List.pairwise_append.mpr ⟨h.inOrder _, List.pairwise_singleton _ _, ?_⟩
      intro m hm m' hm' hid
      obtain rfl := List.mem_singleton.mp hm'
      have hlt := (h.message _ _ m hm).2.2.1
      rwa [hid] at hlt
    · simp only [Server.callThere, Function.update_of_ne hq]
      exact h.inOrder queue
  · intro i origin' req' j call' hreq' hj hcall' hnone
    by_cases hkey : (i, j) = (id, s.issued id)
    · obtain ⟨rfl, rfl⟩ := Prod.mk.inj hkey
      obtain ⟨rfl, rfl⟩ := Prod.mk.inj (Option.some.inj (hreq.symm.trans hreq'))
      obtain rfl := Option.some.inj (hcall.symm.trans hcall')
      exact ⟨_, (hqueue _ _).mpr (.inr ⟨rfl, rfl⟩), rfl, rfl⟩
    · have hj' : j < s.issued i := by
        rcases eq_or_ne i id with rfl | hne
        · have hne' : j ≠ s.issued i := fun he => hkey (by rw [he])
          simp only [Server.callThere, Function.update_self] at hj
          omega
        · simpa only [Server.callThere, Function.update_of_ne hne] using hj
      obtain ⟨msg, hmsg, hrest⟩ := h.queued i origin' req' j call' hreq' hj' hcall' hnone
      exact ⟨msg, (hqueue _ _).mpr (.inl hmsg), hrest⟩

/-- The first message of a queue is run. -/
theorem Refines.receive (h : Refines hash order s x) {src dst : Fin smp.count} {message : Message}
    {rest : List Message} (hqueue : s.messages (src, dst) = message :: rest) {req : Request}
    {call : CoreOp smp hash} (hreq : s.requests message.id = some (src, req))
    (hcall : (callsOf hash order req)[message.index]? = some call) (hcore : call.core = dst)
    (hop : call.op = message.op) :
    Refines hash order (s.receive src dst message rest)
      (x.perform perform ⟨message.id, message.index, call⟩) := by
  obtain ⟨-, hnone, hlt, -⟩ := h.message src dst message (by simp [hqueue])
  have hperform : perform x.state call = invokeOn s.peers dst (fun t => t.exec message.op) := by
    rw [perform, h.state, hcore, hop]
  have horder : (message :: rest).Pairwise (fun m m' => m.id = m'.id → m.index < m'.index) :=
    hqueue ▸ h.inOrder _
  -- what is still in a queue is another operation
  have hkeys : ∀ queue, ∀ m ∈ (s.receive src dst message rest).messages queue,
      m ∈ s.messages queue ∧
      (m.id, m.index) ≠ (message.id, message.index) := by
    intro queue m hm
    simp only [Server.receive, Function.update_apply] at hm
    split at hm
    · next hq =>
      refine ⟨by rw [hq, hqueue]; exact List.mem_cons_of_mem _ hm, ?_⟩
      intro hkey
      obtain ⟨hid, hindex⟩ := Prod.mk.inj hkey
      have hlater := List.rel_of_pairwise_cons horder hm hid.symm
      omega
    · next hq =>
      refine ⟨hm, ?_⟩
      intro hkey
      obtain ⟨hid, hindex⟩ := Prod.mk.inj hkey
      obtain ⟨-, -, -, req', call', hreq', hcall', hcore', -⟩ := h.message queue.1 queue.2 m hm
      rw [hid] at hreq'
      obtain ⟨hsrc, rfl⟩ := Prod.mk.inj (Option.some.inj (hreq.symm.trans hreq'))
      rw [hindex] at hcall'
      obtain rfl := Option.some.inj (hcall.symm.trans hcall')
      exact hq (Prod.ext hsrc.symm (hcore'.symm.trans hcore))
  refine { h with
    state := congrArg Prod.fst hperform, replied := ?_, back := ?_, issued := ?_, message :=
      ?_, inOrder := ?_,
    queued := ?_, responded := h.responded_perform (h.unanswered hreq hcall hnone) }
  · intro key
    simp only [Service.perform_replies, Server.receive, Function.update_apply,
    CompositeCalls.Entry.key, hperform]
    split
    · next hkey =>
      rw [hkey, (h.not_back hnone).1]
      rfl
    · exact h.replied key
  · intro key hkey
    simp only [Server.receive, Function.update_apply] at hkey ⊢
    split at hkey
    · next heq =>
      rw [heq]
      exact (h.not_back hnone).1
    · exact h.back key hkey
  · intro i j hj
    rw [Service.perform_replies] at hj
    split at hj
    · next hkey =>
      obtain ⟨rfl, rfl⟩ := Prod.mk.inj hkey
      exact hlt
    · exact h.issued i j hj
  · intro src' dst' m hm
    obtain ⟨hold, hkey⟩ := hkeys _ m hm
    obtain ⟨hne, hnone', hrest⟩ := h.message src' dst' m hold
    refine ⟨hne, ?_, hrest⟩
    rw [Service.perform_replies, if_neg]
    · exact hnone'
    · exact hkey
  · intro queue
    simp only [Server.receive, Function.update_apply]
    split
    · exact (List.pairwise_cons.mp horder).2
    · exact h.inOrder queue
  · intro i origin' req' j call' hreq' hj hcall' hnone'
    obtain ⟨hkey, hnone'⟩ := Service.replies_none_of_perform hnone'
    obtain ⟨m, hm, rfl, rfl⟩ := h.queued i origin' req' j call' hreq' hj hcall' hnone'
    refine ⟨m, ?_, rfl, rfl⟩
    simp only [Server.receive, Function.update_apply]
    split
    · next hq =>
      rw [hq, hqueue] at hm
      rcases List.mem_cons.mp hm with rfl | hm
      · exact absurd rfl hkey
      · exact hm
    · exact hm

theorem Refines.resolve (h : Refines hash order s x) {key : ℕ × ℕ} {reply : Reply}
    (hreply : s.returning key = some reply) : Refines hash order (s.resolve key reply) x := by
  have hnone := h.back key (by simp [hreply])
  refine { h with replied := ?_, back := ?_ }
  · intro key'
    rw [h.replied]
    simp only [Server.resolve, Function.update_apply]
    split
    · next hkey =>
      rw [hkey, hnone, hreply]
      rfl
    · rfl
  · intro key' hkey'
    simp only [Server.resolve, Function.update_apply] at hkey' ⊢
    split at hkey'
    · simp at hkey'
    · next hne =>
      rw [if_neg hne]
      exact h.back key' hkey'

theorem Refines.respond (h : Refines hash order s x) {origin : Fin smp.count} {req : Request}
    (hreq : s.requests id = some (origin, req))
    (hall : ∀ i < (callsOf hash order req : List (CoreOp smp hash)).length,
    (s.replies (id, i)).isSome) :
    Refines hash order (s.respond id ((handler smp hash order req).respond
      (resultsOf s.replies id (callsOf hash order req : List (CoreOp smp hash)).length))) x := by
  have hsame : ∀ i < (callsOf hash order req : List (CoreOp smp hash)).length, x.replies (id, i) =
      s.replies (id, i) := by
    intro i hi
    rw [h.replied, Option.or_of_isSome (hall i hi)]
  refine { h with responded := ?_ }
  intro i response hr
  simp only [Server.respond, Function.update_apply] at hr
  split at hr
  · next hi =>
    subst hi
    refine ⟨origin, req, hreq, ?_, ?_⟩
    · intro j hj
      rw [hsame j hj]
      exact hall j hj
    · rw [← Option.some.inj hr]
      refine congrArg _ (List.filterMap_congr ?_)
      intro j hj
      exact (hsame j (List.mem_range.mp hj)).symm
  · exact h.responded i response hr

/-- Operations that a handler issues to its own core have their replies at once. -/
theorem Refines.inTurn_here (h : Refines hash order s x) {origin : Fin smp.count} {req : Request}
    {call : CoreOp smp hash} (hreq : s.requests id = some (origin, req))
    (hcore : call.core = origin) :
    x.InTurn CoreOp.core (callsOf hash order req) ⟨id, s.issued id, call⟩ := by
  intro j hj hlane
  obtain ⟨call', hcall', hcore'⟩ := Option.map_eq_some_iff.mp hlane
  by_contra hnone
  rw [Option.not_isSome_iff_eq_none] at hnone
  obtain ⟨msg, hmsg, -⟩ := h.queued id origin req j call' hreq hj hcall' hnone
  exact (h.message _ _ msg hmsg).1 (hcore.symm.trans hcore'.symm)

/-- The first message of a queue waits for no other operation of its request. -/
theorem Refines.inTurn_message (h : Refines hash order s x) {src dst : Fin smp.count}
    {message : Message} {rest : List Message} (hqueue : s.messages (src, dst) = message :: rest)
    {req : Request} {call : CoreOp smp hash} (hreq : s.requests message.id = some (src, req))
    (hcore : call.core = dst) :
    x.InTurn CoreOp.core (callsOf hash order req) ⟨message.id, message.index, call⟩ := by
  obtain ⟨-, -, hlt, -⟩ := h.message src dst message (by simp [hqueue])
  intro j hj hlane
  obtain ⟨call', hcall', hcore'⟩ := Option.map_eq_some_iff.mp hlane
  by_contra hnone
  rw [Option.not_isSome_iff_eq_none] at hnone
  obtain ⟨msg, hmsg, hid, hindex⟩ :=
    h.queued message.id src req j call' hreq (Nat.lt_trans hj hlt) hcall' hnone
  have hdst : call'.core = dst := hcore'.trans hcore
  rw [hdst, hqueue] at hmsg
  have horder : (message :: rest).Pairwise (fun m m' => m.id = m'.id → m.index < m'.index) :=
    hqueue ▸ h.inOrder _
  have hearlier : j < message.index := hj
  rcases List.mem_cons.mp hmsg with rfl | hmsg
  · omega
  · have hlater := List.rel_of_pairwise_cons horder hmsg hid.symm
    omega

/-- What one event does, the service of composite calls does in at most one step. -/
theorem Refines.step (h : Refines hash order s x) {event : Event smp}
    (hs : CppServerSteps.step hash order s event = some s') :
    ∃ as x', run (CompositeCalls.step perform CoreOp.core) x as = some x' ∧
      Refines hash order s' x' := by
  have hcalls : ∀ {id origin req}, s.requests id = some (origin, req) →
      x.calls id = some (callsOf hash order req) := by
    intro id origin req hreq
    rw [h.calls, hreq]
    rfl
  rcases step_cases hs with ⟨id, origin, req, -, hnew, rfl⟩ |
    ⟨id, origin, req, call, -, hreq, hcall, hwhere⟩ | ⟨src, dst, message, rest, -, hqueue, rfl⟩ |
    ⟨id, index, reply, -, hreply, rfl⟩ | ⟨id, origin, req, -, hreq, -, hall, rfl⟩
  · have hnone : x.calls id = none := by
      rw [h.calls, hnew]
      rfl
    exact ⟨[.call id (callsOf hash order req)], _, run_singleton.mpr (step_call hnone _),
      h.arrive hnew origin req⟩
  · rcases hwhere with ⟨hcore, rfl⟩ | ⟨hcore, rfl⟩
    · refine ⟨[.perform id (s.issued id)], _, run_singleton.mpr ?_, h.callHere hreq hcall hcore⟩
      exact step_perform (hcalls hreq) hcall (h.fresh id) (h.inTurn_here hreq hcore)
    · exact ⟨[], x, rfl, h.callThere hreq hcall hcore⟩
  · obtain ⟨-, hnone, -, req, call, hreq, hcall, hcore, hop⟩ :=
      h.message src dst message (by simp [hqueue])
    refine ⟨[.perform message.id message.index], _, run_singleton.mpr ?_,
    h.receive hqueue hreq hcall hcore hop⟩
    exact step_perform (hcalls hreq) hcall hnone (h.inTurn_message hqueue hreq hcore)
  · exact ⟨[], x, rfl, h.resolve hreply⟩
  · exact ⟨[], x, rfl, h.respond hreq hall⟩

private theorem getElem?_resultsOf {replies : ℕ × ℕ → Option Reply} {id count : ℕ}
    (h : ∀ i < count, (replies (id, i)).isSome) :
    (resultsOf replies id count).length = count ∧ ∀ i < count, (resultsOf replies id count)[i]? =
      replies (id, i) := by
  induction count with
  | zero => simp [resultsOf]
  | succ count ih =>
    obtain ⟨hlength, hget⟩ := ih (fun i hi => h i (Nat.lt_succ_of_lt hi))
    obtain ⟨r, hr⟩ := Option.isSome_iff_exists.mp (h count (Nat.lt_succ_self count))
    have hlast : resultsOf replies id (count + 1) = resultsOf replies id count ++ [r] := by
      rw [resultsOf, List.range_succ, List.filterMap_append]
      simp [resultsOf, hr]
    rw [hlast, List.length_append, hlength]
    refine ⟨rfl, ?_⟩
    intro i hi
    rcases Nat.lt_succ_iff_lt_or_eq.mp hi with hlt | rfl
    · rw [List.getElem?_append_left (by omega), hget i hlt]
    · rw [List.getElem?_append_right (by omega), hlength, Nat.sub_self, hr]
      rfl

/-- The operations that the cores have performed as a sequential history of the API. -/
structure Linearizes (hash : Fbstring → UInt32) (order : IterationOrder Fbstring)
    (api : Fbstring → CppSingleThreadStorage.Entry) (s : Server smp)
    (log : List (CompositeCalls.Entry (CoreOp smp hash))) : Prop where
  /-- A response is made of what the API has answered to each operation of the request. -/
  responses : ∀ id response, s.responses id = some response → ∃ origin req replies,
    s.requests id = some (origin, req) ∧ response = req.response order .badRequest replies ∧
      replies.length = (callsOf hash order req : List (CoreOp smp hash)).length ∧
      ∀ i r, replies[i]? = some r → ((id, i), r) ∈ answers apiPerform api log
  once : (log.map CompositeCalls.Entry.key).Nodup
  requests : ∀ e ∈ log, ∃ origin req, s.requests e.call = some (origin, req) ∧
    (callsOf hash order req)[e.index]? = some e.op
  /-- On one core the operations of a request keep their order. -/
  ordered : log.Pairwise (fun e f => e.call = f.call → e.op.core = f.op.core → e.index < f.index)
  /-- The cores hold what the API has. -/
  holds : Holds hash s.peers (final apiPerform api (log.map CompositeCalls.Entry.op))

theorem Refines.linearizes {s : Server smp}
    {x : Service (ShardedStorage smp) (CoreOp smp hash) Reply} {peers : ShardedStorage smp}
    {api : Fbstring → CppSingleThreadStorage.Entry} (h : Refines hash order s x)
    (hx : History perform CoreOp.core peers x) (hholds : Holds hash peers api) :
    Linearizes hash order api s x.log := by
  refine ⟨?_, hx.once, ?_, hx.ordered, ?_⟩
  · intro id response hresponse
    obtain ⟨origin, req, hreq, hall, rfl⟩ := h.responded id response hresponse
    obtain ⟨hlength, hget⟩ := getElem?_resultsOf hall
    refine ⟨origin, req, _, hreq, respond_eq req _, hlength, ?_⟩
    intro i r hr
    have hlt : i < (callsOf hash order req : List (CoreOp smp hash)).length := by
      rw [← hlength]
      exact (List.getElem?_eq_some_iff.mp hr).1
    rw [← answers_of_simulates simulates_perform hholds (fun _ _ => trivial)]
    exact hx.replied (id, i) r ((hget i hlt).symm.trans hr)
  · intro e he
    obtain ⟨ops, hops, hop⟩ := hx.logged e he
    rw [h.calls] at hops
    obtain ⟨⟨origin, req⟩, hreq, rfl⟩ := Option.map_eq_some_iff.mp hops
    exact ⟨origin, req, hreq, hop⟩
  · rw [← h.state, hx.state]
    exact simulates_perform.final hholds (fun _ _ => trivial)

theorem Linearizes.performed {api : Fbstring → CppSingleThreadStorage.Entry} {s : Server smp}
    {log : List (CompositeCalls.Entry (CoreOp smp hash))} (h : Linearizes hash order api s log)
    {id : ℕ} {origin : Fin smp.count} {req : Request} {response : Response}
    (hreq : s.requests id = some (origin, req)) (hresponse : s.responses id = some response) {i : ℕ}
    (hi : i < (callsOf hash order req : List (CoreOp smp hash)).length) :
    (id, i) ∈ log.map CompositeCalls.Entry.key := by
  obtain ⟨origin', req', replies, hreq', -, hlength, hreplies⟩ := h.responses id response hresponse
  obtain ⟨rfl, rfl⟩ := Prod.mk.inj (Option.some.inj (hreq.symm.trans hreq'))
  exact mem_keys_of_answers (hreplies i _ (List.getElem?_eq_getElem (hlength ▸ hi)))

/-- The histories of the states of one run, of which each continues the ones before. -/
structure Logged (hash : Fbstring → UInt32) (order : IterationOrder Fbstring)
    (api : Fbstring → CppSingleThreadStorage.Entry) (peers : ShardedStorage smp)
    (events : List (Event smp)) (logs : ℕ → List (CompositeCalls.Entry (CoreOp smp hash))) :
    Prop where
  linearizes : ∀ i u, run (CppServerSteps.step hash order) (.start peers) (events.take i) = some u →
    Linearizes hash order api u (logs i)
  grows : ∀ i j, i ≤ j → logs i <+: logs j

theorem exists_logged {peers : ShardedStorage smp} {api : Fbstring → CppSingleThreadStorage.Entry}
    (hholds : Holds hash peers api) {events : List (Event smp)} {s : Server smp}
    (hrun : run (CppServerSteps.step hash order) (.start peers) events = some s) :
    ∃ logs, Logged hash order api peers events logs := by
  obtain ⟨xs, hstart, habs, hrefines⟩ := run_of_matches (Refines hash order)
    (fun _ _ _ _ h hs => h.step hs) (refines_start peers) hrun
  have hhistory : ∀ i, History perform CoreOp.core peers (xs i) := by
    intro i
    refine invariant_of_chain (History perform CoreOp.core peers) habs
      (fun _ _ _ h hr => (h.run hr).1) ?_ i.zero_le
    rw [hstart]
    exact history_start perform CoreOp.core peers
  refine ⟨fun i => (xs i).log, fun i u hu => (hrefines i u hu).linearizes (hhistory i) hholds, ?_⟩
  intro i j hij
  have hinv := invariant_of_chain
    (fun x => History perform CoreOp.core peers x ∧ (xs i).log <+: x.log) habs
    (fun _ _ _ h hr => ⟨(h.1.run hr).1, h.2.trans (h.1.run hr).2⟩)
    ⟨hhistory i, List.prefix_rfl⟩ hij
  exact hinv.2

/-- What has arrived at one moment of a run has arrived at every later one. -/
theorem requests_take {peers : ShardedStorage smp} {events : List (Event smp)} {i j : ℕ}
    {u v : Server smp} {id : ℕ} {arrival : Fin smp.count × Request} (hij : i ≤ j)
    (hu : run (CppServerSteps.step hash order) (.start peers) (events.take i) = some u)
    (hv : run (CppServerSteps.step hash order) (.start peers) (events.take j) = some v)
    (hreq : u.requests id = some arrival) : v.requests id = some arrival := by
  have hsplit : events.take j = events.take i ++ (events.take j).drop i := by
    have htake := List.take_append_drop i (events.take j)
    rwa [List.take_take, Nat.min_eq_left hij, eq_comm] at htake
  rw [hsplit] at hv
  obtain ⟨u', hu', hv⟩ := run_append_eq_some.mp hv
  obtain rfl := Option.some.inj (hu.symm.trans hu')
  exact requests_run hreq hv

variable {peers : ShardedStorage smp} {api : Fbstring → CppSingleThreadStorage.Entry}
  {events : List (Event smp)} {logs : ℕ → List (CompositeCalls.Entry (CoreOp smp hash))}
  {i j : ℕ} {u v : Server smp} {e : CompositeCalls.Entry (CoreOp smp hash)}

/-- A request has no operations before it arrives. -/
theorem Logged.not_before (h : Logged hash order api peers events logs)
    (hu : run (CppServerSteps.step hash order) (.start peers) (events.take i) = some u) {id : ℕ}
    (hnew : u.requests id = none) (he : e ∈ logs i) : e.call ≠ id := by
  rintro rfl
  obtain ⟨origin, req, hreq, -⟩ := (h.linearizes i u hu).requests e he
  simp [hnew] at hreq

/-- A request that has been answered has had all its operations. -/
theorem Logged.mem_of_answered (h : Logged hash order api peers events logs) (hij : i ≤ j)
    (hu : run (CppServerSteps.step hash order) (.start peers) (events.take i) = some u)
    (hv : run (CppServerSteps.step hash order) (.start peers) (events.take j) = some v)
    (hanswered : u.responses e.call ≠ none) (he : e ∈ logs j) : e ∈ logs i := by
  have hlinear := h.linearizes i u hu
  have hlinear' := h.linearizes j v hv
  obtain ⟨response, hresponse⟩ := Option.ne_none_iff_exists'.mp hanswered
  obtain ⟨origin', req', hreq', hop⟩ := hlinear'.requests e he
  have hreq : u.requests e.call = some (origin', req') := by
    obtain ⟨origin, req, -, hreq, -⟩ := hlinear.responses e.call response hresponse
    rw [hreq, ← requests_take hij hu hv hreq, hreq']
  have hkey := hlinear.performed hreq hresponse (List.getElem?_eq_some_iff.mp hop).1
  obtain ⟨e', he', hsame⟩ := List.mem_map.mp hkey
  obtain rfl := List.inj_on_of_nodup_map hlinear'.once ((h.grows i j hij).subset he') he hsame
  exact he'

/-- Along every run the operations that the cores have performed are a history of the storage,
which only grows. An answered request has no operations any more, one that has not arrived has
none yet. -/
theorem server_linearizes (hash : Fbstring → UInt32) (order : IterationOrder Fbstring)
    (peers : ShardedStorage smp) (api : Fbstring → CppSingleThreadStorage.Entry)
    (hholds : Holds hash peers api) (events : List (Event smp)) (s : Server smp)
    (hrun : run (CppServerSteps.step hash order) (.start peers) events = some s) :
    ∃ logs, Logged hash order api peers events logs ∧ ∀ i j u v, i ≤ j →
      run (CppServerSteps.step hash order) (.start peers) (events.take i) = some u →
      run (CppServerSteps.step hash order) (.start peers) (events.take j) = some v →
      ∃ later, logs j = logs i ++ later ∧ ∀ a b, u.responses a ≠ none → u.requests b = none →
        (∀ e ∈ later, e.call ≠ a) ∧ ∀ e ∈ logs i, e.call ≠ b := by
  obtain ⟨logs, h⟩ := exists_logged hholds hrun
  refine ⟨logs, h, fun i j u v hij hu hv => ?_⟩
  obtain ⟨later, hlater⟩ := h.grows i j hij
  refine ⟨later, hlater.symm, fun a b ha hb => ⟨?_, fun e he => h.not_before hu hb he⟩⟩
  rintro e he rfl
  have hearlier := h.mem_of_answered hij hu hv ha (hlater ▸ List.mem_append_right _ he)
  have honce := (h.linearizes j v hv).once
  rw [← hlater, List.map_append] at honce
  exact (List.nodup_append'.mp honce).2.2 (List.mem_map_of_mem hearlier) (List.mem_map_of_mem he)

abbrev twoCores : Smp := ⟨2, Nat.two_pos⟩

def secondCore (_ : Fbstring) : UInt32 := 1

def addEvents : List (Event twoCores) :=
  [.arrive 0 0 (.add ⟨[97], [98]⟩), .issue 0, .run 0 1, .resolve 0 0, .respond 0]

def queryEvents : List (Event twoCores) := [.arrive 1 1 (.query [97]), .issue 1, .respond 1]

theorem run_addEvents (order : IterationOrder Fbstring) : ∃ s : Server twoCores,
    run (CppServerSteps.step secondCore order) (.start (ShardedStorage.new twoCores)) addEvents =
      some s ∧
      s.responses 0 = some .done ∧ s.requests 1 = none ∧
      ∃ s', run (CppServerSteps.step secondCore order) s queryEvents = some s' ∧
        s'.requests 1 = some (1, .query [97]) ∧ s'.responses 1 = some ⟨.ok, .text [98]⟩ :=
  ⟨_, rfl, rfl, rfl, _, rfl, rfl, rfl⟩

theorem server_linearizes_query : ∃ (s s' : Server twoCores)
    (log later : List (CompositeCalls.Entry (CoreOp twoCores secondCore))),
    s.responses 0 = some .done ∧ s'.responses 1 = some ⟨.ok, .text [98]⟩ ∧
    Linearizes secondCore (.choice Fbstring) (fun _ => .absent) s log ∧
    Linearizes secondCore (.choice Fbstring) (fun _ => .absent) s' (log ++ later) ∧
    (∀ e ∈ later, e.call ≠ 0) ∧ ∀ e ∈ log, e.call ≠ 1 := by
  obtain ⟨s, hs, hadded, hnew, s', hs', -, hqueried⟩ := run_addEvents (.choice Fbstring)
  have hrun := run_append_eq_some.mpr ⟨s, hs, hs'⟩
  obtain ⟨logs, h, hprecedes⟩ := server_linearizes secondCore (.choice Fbstring) _ _
    (holds_new twoCores secondCore) (addEvents ++ queryEvents) s' hrun
  obtain ⟨later, hlater, hlate⟩ := hprecedes 5 8 s s' (by omega) hs hrun
  have hlast := h.linearizes 8 s' hrun
  rw [hlater] at hlast
  exact ⟨s, s', logs 5, later, hadded, hqueried, h.linearizes 5 s hs, hlast,
    hlate 0 1 (by simp [hadded]) hnew⟩

end HCache.CppServerHistories
