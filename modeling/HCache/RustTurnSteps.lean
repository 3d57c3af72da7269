import HCache.AtomicSteps
import HCache.RustClusterCallHistories

/-!
# The turns of a cluster in atomic steps

Each turn as the calls of the lock-free maps and of the databases and the sections under the lock
of the buckets that its function makes, one after another. No lock spans two of them, so the steps
of all turns under way on a host come in any order.
-/
namespace HCache.RustTurnSteps
open Std OrderedMaps KeyPartitions InterleavedSystems AtomicSteps
open RustStorage RustRouting RustClusterNodes RustClusterStores RustClusterCalls

variable {Host : Type}

abbrev Steps := Program Storage Reply

def change (effect : Storage → Storage) (rest : Steps) : Steps := .act effect (fun _ => rest)

def look (next : Storage → Steps) : Steps := .act id next

def putZset (key : Str) (z : ZSet) (s : Storage) : Storage :=
  { s with zsets := s.zsets.insert key z }

/-- What is done to a sorted set through a reference. Where another call has removed the set
meanwhile, the two calls overlap on the key and one of them writes. -/
def updateZset (key : Str) (f : ZSet → ZSet) (s : Storage) : Storage :=
  { s with zsets := s.zsets.modify key f }

/-- `value_to_score.insert` -/
def setScore (sv : ScoreValue) (z : ZSet) : ZSet :=
  { z with valueToScore := z.valueToScore.insert sv.value sv.score }

/-- `value_to_score.remove_with_guard` -/
def removeScore (value : Str) (z : ZSet) : ZSet :=
  { z with valueToScore := z.valueToScore.erase value }

/-- One section under the lock: out of the old bucket and into the new one. -/
def moveBucket (score : UInt32) (sv : ScoreValue) (z : ZSet) : ZSet :=
  let removed := removeFromBucket z.scoreToValues score sv.value
  { z with scoreToValues := addToBucket removed sv.score sv.value }

def enterBucket (sv : ScoreValue) (z : ZSet) : ZSet :=
  { z with scoreToValues := addToBucket z.scoreToValues sv.score sv.value }

def leaveBucket (value : Str) (score : UInt32) (z : ZSet) : ZSet :=
  { z with scoreToValues := removeFromBucket z.scoreToValues score value }

def insertKv (key value : Str) (rest : Steps) : Steps :=
  change (fun s => s.zsetsRemove key) <|
  change (fun s => { s with db := s.db.insert key value }) <|
  change (fun s => s.insertKvInMemory key value) rest

/-- `remove_key`, then `zsets.remove`. -/
def del (key : Str) (rest : Steps) : Steps :=
  change (fun s => { s with db := s.db.erase key }) <|
  change (fun s => { s with kv := s.kv.erase key }) <|
  change (fun s => s.zsetsRemove key) rest

def zadd (key : Str) (sv : ScoreValue) (rest : Steps) : Steps :=
  change (fun s =>
    { s with zsetDb := s.zsetDb.insert (getZsetKey key sv.value) (toLeBytes sv.score) }) <|
  change (fun s => putZset key (s.getOrInsertZset key) s) <|
  look (fun s =>
    match (s.getOrInsertZset key).valueToScore[sv.value]? with
    | some score =>
      if score ≠ sv.score then
        change (updateZset key (moveBucket score sv)) (change (updateZset key (setScore sv)) rest)
      else rest
    | none => change (updateZset key (setScore sv)) (change (updateZset key (enterBucket sv)) rest))

/-- `remove_with_guard` removes and returns in one step. -/
def zrmv (key value : Str) (rest : Steps) : Steps :=
  look (fun s =>
    match s.zsets[key]? with
    | none => rest
    | some _ => .act (updateZset key (removeScore value)) (fun s =>
      match (s.getOrInsertZset key).valueToScore[value]? with
      | none => rest
      | some score =>
        change (fun s => { s with zsetDb := s.zsetDb.erase (getZsetKey key value) })
          (change (updateZset key (leaveBucket value score)) rest)))

def zrange (order : IterationOrder Str) (key : Str) (r : ScoreRange) : Steps :=
  look (fun s =>
    match s.zsets[key]? with
    | none => .done (.response (zrangeResponse none))
    | some _ => look (fun s =>
      match (s.getOrInsertZset key).zrange order r with
      | .ok value => .done (.response (zrangeResponse (some value)))
      | .error _ => .done (.response .internalServerError)))

def execute (order : IterationOrder Str) : Request → Steps
  | .query key => look (fun s => .done (.response (queryResponse (s.getKv key))))
  | .del key => del key (.done (.response .done))
  | .add kv => insertKv kv.key kv.value (.done (.response .done))
  | .zadd key dto => zadd key dto (.done (.response .done))
  | .zrange key dto => zrange order key dto
  | .zrmv key value => zrmv key value (.done (.response .done))

/-- The body of an RPC makes the calls that the handler of its owner makes. -/
def turnSteps : Turn → Steps
  | .handle order req | .serve order req => execute order req
  | .insertInMemory kv => change (fun s => s.insertKvInMemory kv.key kv.value) (.done .unit)
  | .insert kv => insertKv kv.key kv.value (.done .unit)
  | .get key => look (fun s => .done (.found ((s.getKv key).map (fun value => ⟨key, value⟩))))

def readsOnly : Request → Prop
  | .query _ | .zrange _ _ => True
  | _ => False

def turnReads : Turn → Prop
  | .handle _ req | .serve _ req => readsOnly req
  | .get _ => True
  | _ => False

variable (s : Storage) (key value : Str) (sv : ScoreValue) (rest : Steps)

@[simp] theorem alone_change (effect : Storage → Storage) :
    (change effect rest).alone s = rest.alone (effect s) := rfl

@[simp] theorem alone_look (next : Storage → Steps) : (look next).alone s = (next s).alone s := rfl

@[simp] theorem getOrInsertZset_putZset (z : ZSet) : (putZset key z s).getOrInsertZset key = z := by
  simp [putZset, Storage.getOrInsertZset]

/-- A change through a reference to a set that is there. -/
@[simp] theorem updateZset_putZset (f : ZSet → ZSet) (z : ZSet) :
    updateZset key f (putZset key z s) = putZset key (f z) s := by
  simp only [updateZset, putZset, Storage.mk.injEq, true_and, and_true]
  apply ExtTreeMap.ext_getElem?
  intro k
  by_cases hk : key = k
  · simp [hk]
  · simp [ExtTreeMap.getElem?_modify, lookup_insert, hk]

theorem putZset_self {z : ZSet} (hz : s.zsets[key]? = some z) : putZset key z s = s := by
  have hzsets : s.zsets.insert key z = s.zsets := by
    apply ExtTreeMap.ext_getElem?
    intro k
    rw [lookup_insert]
    split
    · next hk => rw [← hk, hz]
    · rfl
  rw [putZset, hzsets]

private theorem alone_zadd : (zadd key sv rest).alone s = rest.alone (s.zadd key sv) := by
  obtain ⟨t, ht⟩ : ∃ t : Storage,
      t = { s with zsetDb := s.zsetDb.insert (getZsetKey key sv.value) (toLeBytes sv.score) } :=
    ⟨_, rfl⟩
  have hzadd : s.zadd key sv = putZset key ((t.getOrInsertZset key).zaddMemory sv) t := by
    rw [ht]
    rfl
  rw [hzadd, zadd, alone_change, ← ht]
  simp only [alone_change, alone_look, getOrInsertZset_putZset]
  cases hv : (t.getOrInsertZset key).valueToScore[sv.value]? with
  | none => simp [zaddMemory_new hv, setScore, enterBucket]
  | some score =>
    rcases eq_or_ne score sv.score with rfl | hs
    · simp [zaddMemory_same hv]
    · simp [zaddMemory_moved hv hs, hs, setScore, moveBucket]

private theorem updateZset_some {z : ZSet} (hz : s.zsets[key]? = some z) (f : ZSet → ZSet) :
    updateZset key f s = putZset key (f z) s := by
  rw [← updateZset_putZset, putZset_self s key hz]

private theorem removeScore_of_none {z : ZSet} (h : z.valueToScore[value]? = none) :
    removeScore value z = z := by
  have herase : z.valueToScore.erase value = z.valueToScore := by
    apply ExtTreeMap.ext_getElem?
    intro v
    rw [lookup_erase]
    split
    · next hv => rw [← hv, h]
    · rfl
  rw [removeScore, herase]

private theorem alone_zrmv : (zrmv key value rest).alone s = rest.alone (s.zrmv key value) := by
  rw [zrmv, alone_look]
  cases hz : s.zsets[key]? with
  | none => simp [Storage.zrmv, hz]
  | some z =>
    have hget : s.getOrInsertZset key = z := by
      rw [Storage.getOrInsertZset, hz, Option.getD_some]
    simp only [Program.alone, hget, updateZset_some s key hz]
    cases hv : z.valueToScore[value]? with
    | none =>
      have hsame : s.zrmv key value = s := by simp [Storage.zrmv, hz, hv]
      simp only [removeScore_of_none value hv, putZset_self s key hz, hsame]
    | some score =>
      have hzrmv : s.zrmv key value = putZset key (leaveBucket value score (removeScore value z))
          { s with zsetDb := s.zsetDb.erase (getZsetKey key value) } := by
        simp only [Storage.zrmv, hz, hv]
        rfl
      rw [hzrmv]
      exact congrArg rest.alone (updateZset_putZset
        { s with zsetDb := s.zsetDb.erase (getZsetKey key value) } key _ (removeScore value z))

private theorem alone_execute (order : IterationOrder Str) (req : Request) :
    (execute order req).alone s = Turn.perform s (.handle order req) := by
  cases req with
  | query key => rfl
  | del key => rfl
  | add kv => rfl
  | zadd key dto => exact alone_zadd s key dto _
  | zrmv key value => exact alone_zrmv s key value _
  | zrange key dto =>
    simp only [execute, zrange, alone_look, Turn.perform, RustRouting.execute, Storage.zrange,
      Storage.getOrInsertZset]
    cases hz : s.zsets[key]? with
    | none => rfl
    | some z =>
      simp only [alone_look, hz, Option.getD_some]
      cases z.zrange order dto <;> rfl

/-- The steps of a turn without any others do what the turn does at once. -/
theorem alone_turnSteps (turn : Turn) : (turnSteps turn).alone s = turn.perform s := by
  cases turn with
  | handle order req => exact alone_execute s order req
  | serve order req =>
    rw [perform_serve]
    exact alone_execute s order req
  | insertInMemory kv => rfl
  | insert kv => rfl
  | get key => rfl

variable {key : Str} {rest : Steps}

/-- What an effect makes of what is in memory under its key. -/
def Touches (key : Str) (effect : Storage → Storage) : Prop :=
  ∃ f : Option Str × Option ZSet → Option Str × Option ZSet,
    ∀ s k, inMemory (effect s) k = if k = key then f (inMemory s key) else inMemory s k

theorem Touches.localStep {effect : Storage → Storage} (h : Touches key effect)
    {next : Storage → Steps} (hnext : ∀ s t, inMemory s key = inMemory t key → next s = next t) :
    LocalStep inMemory key effect next := by
  obtain ⟨f, hf⟩ := h
  refine ⟨?_, ?_, hnext⟩
  · intro s k hk
    rw [hf, if_neg hk]
  · intro s t hst
    rw [hf, hf, if_pos rfl, if_pos rfl, hst]

theorem local_change {effect : Storage → Storage} (h : Touches key effect)
    (hrest : rest.Local inMemory key) : (change effect rest).Local inMemory key :=
  ⟨h.localStep (fun _ _ _ => rfl), fun _ => hrest⟩

theorem local_look {next : Storage → Steps}
    (hnext : ∀ s t, inMemory s key = inMemory t key → next s = next t)
    (hrest : ∀ s, (next s).Local inMemory key) : (look next).Local inMemory key := by
  refine ⟨Touches.localStep ⟨id, fun s k => ?_⟩ hnext, hrest⟩
  split
  · next hk => rw [hk]; rfl
  · rfl

theorem touches_of_same {effect : Storage → Storage} (key : Str)
    (h : ∀ s k, inMemory (effect s) k = inMemory s k) : Touches key effect := by
  refine ⟨id, fun s k => ?_⟩
  rw [h]
  split
  · next hk => rw [hk]; rfl
  · rfl

theorem touches_zsetsRemove (key : Str) : Touches key (fun s => s.zsetsRemove key) := by
  refine ⟨fun entry => (entry.1, none), fun s k => ?_⟩
  simp only [inMemory, Storage.zsetsRemove, lookup_erase, eq_comm (a := key)]
  split <;> simp_all

theorem touches_insertKvInMemory (key value : Str) :
    Touches key (fun s => s.insertKvInMemory key value) := by
  refine ⟨fun entry => (some value, entry.2), fun s k => ?_⟩
  simp only [inMemory, Storage.insertKvInMemory, lookup_insert, eq_comm (a := key)]
  split <;> simp_all

private theorem touches_eraseKv (key : Str) :
    Touches key (fun s => { s with kv := s.kv.erase key }) := by
  refine ⟨fun entry => (none, entry.2), fun s k => ?_⟩
  simp only [inMemory, lookup_erase, eq_comm (a := key)]
  split <;> simp_all

private theorem touches_getOrInsert (key : Str) :
    Touches key (fun s => putZset key (s.getOrInsertZset key) s) := by
  refine ⟨fun entry => (entry.1, some (entry.2.getD ZSet.new)), fun s k => ?_⟩
  simp only [inMemory, putZset, lookup_insert, eq_comm (a := key), Storage.getOrInsertZset]
  split <;> simp_all

theorem touches_updateZset (key : Str) (f : ZSet → ZSet) : Touches key (updateZset key f) := by
  refine ⟨fun entry => (entry.1, entry.2.map f), fun s k => ?_⟩
  by_cases hk : k = key
  · simp [inMemory, updateZset, hk]
  · simp [inMemory, updateZset, ExtTreeMap.getElem?_modify, hk, Ne.symm hk]

theorem local_insertKv (value : Str) (hrest : rest.Local inMemory key) :
    (insertKv key value rest).Local inMemory key :=
  local_change (touches_zsetsRemove key) <|
  local_change (touches_of_same key (fun _ _ => rfl)) <|
  local_change (touches_insertKvInMemory key value) hrest

private theorem local_del (hrest : rest.Local inMemory key) : (del key rest).Local inMemory key :=
  local_change (touches_of_same key (fun _ _ => rfl)) <|
  local_change (touches_eraseKv key) <|
  local_change (touches_zsetsRemove key) hrest

/-- A reference shows what is in memory. -/
theorem getOrInsertZset_congr {s t : Storage} (h : inMemory s key = inMemory t key) :
    s.getOrInsertZset key = t.getOrInsertZset key :=
  congrArg (fun entry => entry.2.getD ZSet.new) h

private theorem local_zadd (sv : ScoreValue) (hrest : rest.Local inMemory key) :
    (zadd key sv rest).Local inMemory key := by
  refine local_change (touches_of_same key (fun _ _ => rfl)) <|
    local_change (touches_getOrInsert key) <| local_look ?_ ?_
  · intro s t hst
    rw [getOrInsertZset_congr hst]
  · intro s
    split
    · split
      · exact local_change (touches_updateZset key _)
          (local_change (touches_updateZset key _) hrest)
      · exact hrest
    · exact local_change (touches_updateZset key _) (local_change (touches_updateZset key _) hrest)

private theorem local_zrmv (value : Str) (hrest : rest.Local inMemory key) :
    (zrmv key value rest).Local inMemory key := by
  refine local_look ?_ ?_
  · intro s t hst
    rw [show s.zsets[key]? = t.zsets[key]? from congrArg Prod.snd hst]
  · intro s
    split
    · exact hrest
    · refine ⟨(touches_updateZset key _).localStep ?_, ?_⟩
      · intro s t hst
        rw [getOrInsertZset_congr hst]
      · intro s
        beta_reduce
        split
        · exact hrest
        · exact local_change (touches_of_same key (fun _ _ => rfl))
            (local_change (touches_updateZset key _) hrest)

private theorem local_zrange (order : IterationOrder Str) (key : Str) (r : ScoreRange) :
    (zrange order key r).Local inMemory key := by
  refine local_look ?_ ?_
  · intro s t hst
    rw [show s.zsets[key]? = t.zsets[key]? from congrArg Prod.snd hst]
  · intro s
    split
    · trivial
    · refine local_look ?_ ?_
      · intro s t hst
        rw [getOrInsertZset_congr hst]
      · intro s
        split <;> trivial

private theorem local_execute (order : IterationOrder Str) (req : Request) :
    (execute order req).Local inMemory req.key := by
  cases req with
  | query key =>
    refine local_look ?_ (fun _ => trivial)
    intro s t hst
    rw [Storage.getKv, Storage.getKv, show s.kv[key]? = t.kv[key]? from congrArg Prod.fst hst]
  | del key => exact local_del trivial
  | add kv => exact local_insertKv kv.value trivial
  | zadd key dto => exact local_zadd dto trivial
  | zrange key dto => exact local_zrange order key dto
  | zrmv key value => exact local_zrmv value trivial

private theorem local_turnSteps (turn : Turn) : (turnSteps turn).Local inMemory turn.key := by
  cases turn with
  | handle order req => exact local_execute order req
  | serve order req => exact local_execute order req
  | insertInMemory kv => exact local_change (touches_insertKvInMemory kv.key kv.value) trivial
  | insert kv => exact local_insertKv kv.value trivial
  | get key =>
    refine local_look ?_ (fun _ => trivial)
    intro s t hst
    rw [Storage.getKv, Storage.getKv, show s.kv[key]? = t.kv[key]? from congrArg Prod.fst hst]

private theorem quiet_look {next : Storage → Steps} (hrest : ∀ s, (next s).Quiet inMemory) :
    (look next).Quiet inMemory := ⟨fun _ _ => rfl, hrest⟩

private theorem quiet_turnSteps {turn : Turn} (h : turnReads turn) :
    (turnSteps turn).Quiet inMemory := by
  have hexecute : ∀ order req, readsOnly req → (execute order req).Quiet inMemory := by
    intro order req hreads
    cases req with
    | query key => exact quiet_look (fun _ => trivial)
    | zrange key dto =>
      refine quiet_look (fun s => ?_)
      split
      · trivial
      · refine quiet_look (fun s => ?_)
        split <;> trivial
    | _ => exact hreads.elim
  cases turn with
  | handle order req => exact hexecute order req h
  | serve order req => exact hexecute order req h
  | get key => exact quiet_look (fun _ => trivial)
  | _ => exact h.elim

variable [DecidableEq Host]

def onHost (h : Host) : Steps → Program (Host → Node Host) Reply
  | .done reply => .done reply
  | .act effect next => .act
    (fun nodes =>
      Function.update nodes h { nodes h with storage := effect (nodes h).storage })
    (fun nodes => onHost h (next (nodes h).storage))

private theorem alone_onHost (h : Host) (p : Steps) (nodes : Host → Node Host) :
    (onHost h p).alone nodes =
      (Function.update nodes h { nodes h with storage := (p.alone (nodes h).storage).1 },
        (p.alone (nodes h).storage).2) := by
  induction p generalizing nodes with
  | done reply => simp [onHost, Program.alone]
  | act effect next ih => simp [onHost, Program.alone, ih]

/-- What the hosts have in memory, under a host and a key. -/
def nodesMemory (nodes : Host → Node Host) (place : Host × Str) : Option Str × Option ZSet :=
  inMemory (nodes place.1).storage place.2

theorem nodesMemory_update (nodes : Host → Node Host) (h : Host) (s : Storage) (h' : Host)
    (k : Str) :
    nodesMemory (Function.update nodes h { nodes h with storage := s }) (h', k) =
      if h' = h then inMemory s k else nodesMemory nodes (h', k) := by
  rw [nodesMemory, Function.update_apply]
  split <;> rfl

private theorem local_onHost {h : Host} {key : Str} {p : Steps} (hp : p.Local inMemory key) :
    (onHost h p).Local nodesMemory (h, key) := by
  induction p with
  | done reply => trivial
  | act effect next ih =>
    obtain ⟨⟨hother, hself, hnext⟩, hrest⟩ := hp
    refine ⟨⟨?_, ?_, ?_⟩, fun nodes => ih _ (hrest _)⟩
    · rintro nodes ⟨h', k⟩ hne
      rw [nodesMemory_update]
      split
      · next heq =>
        rw [nodesMemory, heq]
        refine hother _ k ?_
        rintro rfl
        exact hne (by rw [heq])
      · rfl
    · intro nodes nodes' hsame
      rw [nodesMemory_update, nodesMemory_update, if_pos rfl, if_pos rfl]
      exact hself _ _ hsame
    · intro nodes nodes' hsame
      rw [hnext _ _ hsame]

private theorem quiet_onHost {h : Host} {p : Steps} (hp : p.Quiet inMemory) :
    (onHost h p).Quiet nodesMemory := by
  induction p with
  | done reply => trivial
  | act effect next ih =>
    refine ⟨?_, fun nodes => ih _ (hp.2 _)⟩
    rintro nodes ⟨h', k⟩
    rw [nodesMemory_update]
    split
    · next heq =>
      rw [nodesMemory, heq]
      exact hp.1 _ k
    · rfl

/-- Only the storage of a host changes. -/
theorem keeps_onHost {P : (Host → Node Host) → Prop}
    (hP : ∀ nodes h s, P nodes → P (Function.update nodes h { nodes h with storage := s }))
    (h : Host) (p : Steps) : (onHost h p).Keeps P := by
  induction p with
  | done reply => trivial
  | act effect next ih => exact ⟨fun nodes => hP nodes h _, fun nodes => ih _⟩

def turnOps : Operations (Host → Node Host) (HostTurn Host) Reply (Host × Str) where
  program t := onHost t.host (turnSteps t.turn)
  key t := (t.host, t.turn.key)
  reads t := turnReads t.turn

theorem perform_turnOps :
    (turnOps.perform : (Host → Node Host) → HostTurn Host → (Host → Node Host) × Reply) =
      performAt := by
  funext nodes t
  rw [Operations.perform, turnOps, alone_onHost, alone_turnSteps]
  rfl

theorem wellKept_turnOps : (turnOps : Operations _ (HostTurn Host) _ _).WellKept nodesMemory where
  within t := local_onHost (local_turnSteps t.turn)
  quiet _ h := quiet_onHost (quiet_turnSteps h)

end HCache.RustTurnSteps
