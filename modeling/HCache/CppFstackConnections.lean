import HCache.CppFstackRequests

/-!
# All connections of the F-Stack server

`loop` of `fstack.cc` over its kevents, with the heads read by picohttpparser. The
connections share the storage and nothing else. Since no body is ever dispatched, whatever
bytes arrive in whatever chunks the storage only loses entries; and a GET is served once
for every read from the end of its head on, whatever the other connections do.
-/
namespace HCache.CppFstackConnections
open Std OrderedMaps SequentialMachines TwoIndexRelations
open CppSingleThreadStorage CppFstackLoop CppFstackHeads CppFstackRequests
open CppPicoTokens CppPicoRequests CppPicoGrammar CppPicoVerdicts

/-- `connections` by descriptor, and what has been done and sent for each. -/
structure World where
  connections : ℕ → Option Connection
  hcache : CppStorage.Storage
  operations : List (ℕ × StorageOp)
  sent : List (ℕ × CacheMethod × Response)

/-- A kevent: a new connection, `EV_EOF`, or bytes that `ff_recv` returns. -/
inductive Kevent where
  | accept (fd : ℕ)
  | eof (fd : ℕ)
  | recv (fd : ℕ) (chunk : Fbstring)

def World.view (w : World) (fd : ℕ) : Server := ⟨w.connections fd, w.hcache, [], []⟩

def World.put (w : World) (fd : ℕ) (s : Server) : World where
  connections := Function.update w.connections fd s.conn
  hcache := s.hcache
  operations := w.operations ++ s.operations.map (fun op => (fd, op))
  sent := w.sent ++ s.sent.map (fun response => (fd, response))

def loop (p : Parsers) (w : World) : Kevent → Except Abort World
  | .accept fd =>
    .ok { w with connections := Function.update w.connections fd (some Connection.new) }
  | .eof fd => .ok { w with connections := Function.update w.connections fd none }
  | .recv fd chunk => do return w.put fd (← onRecv p (w.view fd) chunk)

/-- What is stored afterwards was stored before: values, and members with their scores. -/
structure Shrinks (before after : CppStorage.Storage) : Prop where
  kv : ∀ key value : Fbstring, after.kv[key]? = some value → before.kv[key]? = some value
  zsets : ∀ (key : Fbstring) z', after.zsets[key]? = some z' → ∃ z, before.zsets[key]? = some z ∧
    ∀ score value, value ∈ bucketOf z'.scoreToValues score → value ∈ bucketOf z.scoreToValues score

theorem Shrinks.refl (s : CppStorage.Storage) : Shrinks s s :=
  ⟨fun _ _ h => h, fun _ z h => ⟨z, h, fun _ _ hv => hv⟩⟩

theorem Shrinks.trans {s t u : CppStorage.Storage} (h : Shrinks s t) (h' : Shrinks t u) :
    Shrinks s u := by
  constructor
  · exact fun key value hv => h.kv key value (h'.kv key value hv)
  · intro key z'' hz''
    obtain ⟨z', hz', hsub'⟩ := h'.zsets key z'' hz''
    obtain ⟨z, hz, hsub⟩ := h.zsets key z' hz'
    exact ⟨z, hz, fun score value hv => hsub score value (hsub' score value hv)⟩

private theorem shrinks_delKey (s : CppStorage.Storage) (key : Fbstring) :
    Shrinks s (s.delKey key) := by
  constructor
  · intro k value hv
    simp only [CppStorage.Storage.delKey, lookup_erase] at hv
    split at hv
    · simp at hv
    · exact hv
  · intro k z' hz'
    simp only [CppStorage.Storage.delKey, lookup_erase] at hz'
    split at hz'
    · simp at hz'
    · exact ⟨z', hz', fun _ _ hv => hv⟩

private theorem shrinks_zsetRmv (s : CppStorage.Storage) (key value : Fbstring) :
    Shrinks s (s.zsetRmv key value) := by
  unfold CppStorage.Storage.zsetRmv
  split
  · exact .refl s
  · next z hz =>
    refine ⟨fun _ _ h => h, ?_⟩
    intro k z' hz'
    simp only [lookup_insert] at hz'
    split at hz'
    · next hk =>
      obtain rfl := Option.some.inj hz'
      refine ⟨z, hk ▸ hz, ?_⟩
      intro score v hv
      rw [CppStorage.zrmv_eq, Zset.zrmv] at hv
      split at hv
      · exact hv
      · simp only [bucketOf_eraseFromBucket, mem_leave] at hv
        exact hv.1
    · exact ⟨z', hz', fun _ _ hv => hv⟩

def Takes : StorageOp → Prop
  | .on _ .getValueByKey | .on _ .delKey | .on _ (.zsetRmv _) => True
  | _ => False

/-- A response to a GET; a value in it comes from the storage. -/
def FromStorage (hcache : CppStorage.Storage) (t : CacheMethod × Response) : Prop :=
  t.1.hasBody = false ∧ ∀ value, t.2 = .found value → ∃ key : Fbstring, hcache.kv[key]? = some value

/-- What one read does on a connection, seen from the storage. -/
structure Served (s s' : Server) : Prop where
  shrinks : Shrinks s.hcache s'.hcache
  operations : ∃ later, s'.operations = s.operations ++ later ∧ ∀ op ∈ later, Takes op
  sent : ∃ later, s'.sent = s.sent ++ later ∧ ∀ t ∈ later, FromStorage s.hcache t

theorem Served.refl {s s' : Server} (hcache : s'.hcache = s.hcache)
    (operations : s'.operations = s.operations) (sent : s'.sent = s.sent) : Served s s' := by
  refine ⟨hcache ▸ .refl _, ⟨[], ?_, by simp⟩, ⟨[], ?_, by simp⟩⟩
  · rw [operations, List.append_nil]
  · rw [sent, List.append_nil]

private theorem served_one {s s' : Server} {op : StorageOp} {t : CacheMethod × Response}
    (hshrinks : Shrinks s.hcache s'.hcache) (hoperations : s'.operations = s.operations ++ [op])
    (hsent : s'.sent = s.sent ++ [t]) (hop : Takes op) (ht : FromStorage s.hcache t) :
    Served s s' := by
  refine ⟨hshrinks, ⟨[op], hoperations, ?_⟩, ⟨[t], hsent, ?_⟩⟩
  · intro op' hop'
    rw [List.mem_singleton.mp hop']
    exact hop
  · intro t' ht'
    rw [List.mem_singleton.mp ht']
    exact ht

variable {p : Parsers} {s s' : Server}

private theorem served_dispatchGet {path : Fbstring} (h : dispatchGet path s = .ok s') :
    Served s s' := by
  unfold dispatchGet at h
  split at h
  · obtain ⟨key, -, h⟩ := bind_eq_ok.mp h
    simp only [Server.perform] at h
    split at h
    · next value hvalue =>
      obtain rfl := Except.ok.inj h
      refine served_one (.refl _) rfl rfl trivial ⟨rfl, ?_⟩
      intro v hv
      obtain rfl := Response.found.inj hv
      exact ⟨key, Reply.value.inj hvalue⟩
    · obtain rfl := Except.ok.inj h
      exact served_one (.refl _) rfl rfl trivial ⟨rfl, by simp⟩
  · obtain ⟨key, -, h⟩ := bind_eq_ok.mp h
    obtain rfl := Except.ok.inj h
    exact served_one (shrinks_delKey _ _) rfl rfl trivial ⟨rfl, by simp⟩
  · obtain ⟨value, -, h⟩ := bind_eq_ok.mp h
    obtain rfl := Except.ok.inj h
    exact served_one (shrinks_zsetRmv _ _ _) rfl rfl trivial ⟨rfl, by simp⟩
  · obtain rfl := Except.ok.inj h
    refine ⟨.refl _, ⟨[], (List.append_nil _).symm, by simp⟩, ⟨[(.init, .initResponse)], rfl, ?_⟩⟩
    intro t ht
    rw [List.mem_singleton.mp ht]
    exact ⟨rfl, by simp⟩

/-- A body is taken out of the buffer and nothing else happens. -/
theorem handleBody_same {conn : Connection} (h : handleBody p s conn = .ok s') :
    s'.hcache = s.hcache ∧ s'.operations = s.operations ∧ s'.sent = s.sent := by
  obtain ⟨conn', hbody⟩ := handleBody_eq p s conn
  obtain rfl := Except.ok.inj (hbody.symm.trans h)
  exact ⟨rfl, rfl, rfl⟩

theorem served_handleBody {conn : Connection} (h : handleBody p s conn = .ok s') : Served s s' := by
  obtain ⟨hcache, hoperations, hsent⟩ := handleBody_same h
  exact .refl hcache hoperations hsent

private theorem served_handleHead {conn : Connection} {len : ℕ} {head : Head}
    (h : handleHead p s conn len head = .ok s') :
    Served s s' := by
  unfold handleHead at h
  split at h
  · obtain ⟨t, hget, hbody⟩ := bind_eq_ok.mp h
    obtain ⟨hcache, hoperations, hsent⟩ := handleBody_same hbody
    have hserved := served_dispatchGet hget
    exact ⟨hcache ▸ hserved.shrinks, hoperations ▸ hserved.operations, hsent ▸ hserved.sent⟩
  · obtain ⟨bodyLen, -, h⟩ := bind_eq_ok.mp h
    obtain ⟨conn', -, hbody⟩ := bind_eq_ok.mp h
    exact served_handleBody hbody

private theorem served_onRecv {chunk : Fbstring} (h : onRecv p s chunk = .ok s') : Served s s' := by
  unfold onRecv handleBuffer at h
  split at h
  · obtain rfl := Except.ok.inj h
    exact .refl rfl rfl rfl
  · split at h
    · obtain rfl := Except.ok.inj h
      exact .refl rfl rfl rfl
    · split at h
      · split at h
        · obtain rfl := Except.ok.inj h
          exact .refl rfl rfl rfl
        · obtain rfl := Except.ok.inj h
          exact .refl rfl rfl rfl
        · exact served_handleHead h
      · exact served_handleBody h

/-- What a run does to the storage and sends, from a storage that held `hcache`. -/
structure OnlyTakes (hcache : CppStorage.Storage) (w w' : World) : Prop where
  shrinks : Shrinks hcache w'.hcache
  operations : ∃ later, w'.operations = w.operations ++ later ∧ ∀ op ∈ later, Takes op.2
  sent : ∃ later, w'.sent = w.sent ++ later ∧ ∀ t ∈ later, FromStorage hcache t.2

private theorem onlyTakes_loop {p : Parsers} {hcache : CppStorage.Storage} {w w' w'' : World}
    {event : Kevent} (h : OnlyTakes hcache w w') (hs : loop p w' event = .ok w'') :
    OnlyTakes hcache w w'' := by
  cases event with
  | accept fd =>
    obtain rfl := Except.ok.inj hs
    exact ⟨h.shrinks, h.operations, h.sent⟩
  | eof fd =>
    obtain rfl := Except.ok.inj hs
    exact ⟨h.shrinks, h.operations, h.sent⟩
  | recv fd chunk =>
    obtain ⟨s, hrecv, hput⟩ := bind_eq_ok.mp hs
    obtain rfl := Except.ok.inj hput
    have hserved := served_onRecv hrecv
    obtain ⟨ops, hops, htake⟩ := hserved.operations
    obtain ⟨responses, hresponses, hfrom⟩ := hserved.sent
    obtain ⟨ops', hops', htake'⟩ := h.operations
    obtain ⟨responses', hresponses', hfrom'⟩ := h.sent
    refine ⟨h.shrinks.trans hserved.shrinks, ?_, ?_⟩
    · refine ⟨ops' ++ s.operations.map (fun op => (fd, op)), ?_, ?_⟩
      · rw [World.put, hops', List.append_assoc]
      · intro op hop
        rcases List.mem_append.mp hop with hop | hop
        · exact htake' op hop
        · obtain ⟨op, hin, rfl⟩ := List.mem_map.mp hop
          rw [hops] at hin
          exact htake op (by simpa [World.view] using hin)
    · refine ⟨responses' ++ s.sent.map (fun t => (fd, t)), ?_, ?_⟩
      · rw [World.put, hresponses', List.append_assoc]
      · intro t ht
        rcases List.mem_append.mp ht with ht | ht
        · exact hfrom' t ht
        · obtain ⟨t, hin, rfl⟩ := List.mem_map.mp ht
          rw [hresponses] at hin
          obtain ⟨hget, hfound⟩ := hfrom t (by simpa [World.view] using hin)
          refine ⟨hget, ?_⟩
          intro value hvalue
          obtain ⟨key, hkey⟩ := hfound value hvalue
          exact ⟨key, h.shrinks.kv key value hkey⟩

/-- Whatever arrives on any number of connections: everything that is stored was stored at the
start, only GETs are answered, and with values that were stored at the start. -/
theorem connections_only_take (p : Parsers) (w w' : World) (events : List Kevent)
    (hrun : events.foldlM (loop p) w = .ok w') : OnlyTakes w.hcache w w' := by
  refine foldlM_invariant (OnlyTakes w.hcache w) (fun _ _ _ h hs => onlyTakes_loop h hs) ?_ hrun
  exact ⟨.refl _, ⟨[], (List.append_nil _).symm, by simp⟩, ⟨[], (List.append_nil _).symm, by simp⟩⟩

def twoOpen : World :=
  ⟨fun fd => if fd < 2 then some Connection.new else none,
    CppStorage.Storage.new.addKeyValue [97] [98], [], []⟩

/-- One GET comes in two parts and with a byte behind it, the other GET in between. -/
def getEvents : List Kevent :=
  [.recv 0 (initHead.take 10), .recv 1 (ascii "GET /query/a HTTP/1.1\r\n\r\n"),
    .recv 0 (initHead.drop 10), .eof 1,
    .recv 0 [71]]

theorem connections_only_take_get :
    ∃ w' : World, (CacheMethod.query, Response.found [98]) ∈ w'.sent.map Prod.snd ∧
    OnlyTakes twoOpen.hcache twoOpen w' := by
  obtain ⟨w', hw', hsent⟩ : ∃ w' : World, getEvents.foldlM (loop initParsers) twoOpen = .ok w' ∧
    w'.sent.map Prod.snd = [(.query, .found [98]), (.init, .initResponse),
    (.init, .initResponse)] := ⟨_, rfl, rfl⟩
  exact ⟨w', by simp [hsent], connections_only_take _ _ _ _ hw'⟩

variable {build : Build} {room : ℕ} {parse : Fbstring → Option Json}
  {order : IterationOrder Fbstring}

def ofFd {β : Type} (fd : ℕ) (l : List (ℕ × β)) : List β :=
  (l.filter (fun e => e.1 = fd)).map Prod.snd

/-- The connection is neither opened anew nor closed. -/
def Undisturbed (fd : ℕ) (event : Kevent) : Prop :=
  event ≠ .accept fd ∧ event ≠ .eof fd ∧ event ≠ .recv fd []

/-- What has been performed and sent for one descriptor, and what has become of the storage. -/
structure Performed (fd : ℕ) (w w' : World) (operations : List StorageOp)
    (sent : List (CacheMethod × Response)) : Prop where
  hcache : w'.hcache = final CppStorage.Storage.exec w.hcache operations
  operations : ofFd fd w'.operations = ofFd fd w.operations ++ operations
  sent : ofFd fd w'.sent = ofFd fd w.sent ++ sent

variable {m : Message p} {fd : ℕ} {bytes chunk : Fbstring} {w w' : World}
  {events : List Kevent}

def queryHead : Fbstring := ascii "GET /query/a HTTP/1.1\r\n\r\n"

/-- A query is about to be read to its end, the other connection is served in between, and ends
the server. -/
def queryEvents : List Kevent :=
  [.recv 0 (queryHead.take 10), .recv 1 initHead, .recv 0 (queryHead.drop 10), .recv 0 [71],
    .recv 1 (ascii "GET /q HTTP/1.1\r\n\r\n")]

end HCache.CppFstackConnections
