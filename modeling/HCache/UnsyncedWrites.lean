import Mathlib.Data.List.Basic

/-!
# Stores that lose their last writes

A store has an earlier content on disk and has seen more writes since. They reach the disk in
their order, some at a time; when the store is lost, only what is on disk is left. The log of
the writes that have survived says what the store holds, over any number of losses.
-/
namespace HCache.UnsyncedWrites

variable {σ α : Type*}

/-- The content on disk, and what each later write has left. -/
structure Versions (σ : Type*) where
  disk : σ
  later : List σ
  deriving DecidableEq

def Versions.start (s : σ) : Versions σ := ⟨s, []⟩

def Versions.write (v : Versions σ) (s : σ) : Versions σ := { v with later := v.later ++ [s] }

/-- The next `n` writes reach the disk. -/
def Versions.sync : ℕ → Versions σ → Versions σ
  | n + 1, ⟨_, s :: later⟩ => sync n ⟨s, later⟩
  | _, v => v

def Versions.flush (v : Versions σ) : Versions σ := v.sync v.later.length

def Versions.lose (v : Versions σ) : Versions σ := ⟨v.disk, []⟩

structure Log (α : Type*) where
  disk : List α
  later : List α
  deriving DecidableEq, Repr

def Log.start : Log α := ⟨[], []⟩

def Log.all (l : Log α) : List α := l.disk ++ l.later

def Log.write (l : Log α) (a : α) : Log α := { l with later := l.later ++ [a] }

def Log.sync (n : ℕ) (l : Log α) : Log α := ⟨l.disk ++ l.later.take n, l.later.drop n⟩

def Log.flush (l : Log α) : Log α := l.sync l.later.length

def Log.lose (l : Log α) : Log α := ⟨l.disk, []⟩

@[simp] theorem Log.all_write (l : Log α) (a : α) : (l.write a).all = l.all ++ [a] := by
  simp [Log.all, Log.write]

@[simp] theorem Log.all_sync (l : Log α) (n : ℕ) : (l.sync n).all = l.all := by
  simp [Log.all, Log.sync]

@[simp] theorem Log.all_flush (l : Log α) : l.flush.all = l.all := l.all_sync _

@[simp] theorem Log.all_lose (l : Log α) : l.lose.all = l.disk := by
  simp [Log.all, Log.lose]

@[simp] theorem Log.disk_flush (l : Log α) : l.flush.disk = l.all := by
  simp [Log.flush, Log.sync, Log.all]

theorem Log.disk_prefix (l : Log α) : l.disk <+: l.all := List.prefix_append _ _

theorem Log.disk_sync_prefix (l : Log α) (n : ℕ) : l.disk <+: (l.sync n).disk :=
  List.prefix_append _ _

def contents (f : List α → σ) (done : List α) : List α → List σ
  | [] => []
  | a :: rest => f (done ++ [a]) :: contents f (done ++ [a]) rest

private theorem contents_concat (f : List α → σ) (done rest : List α) (a : α) :
    contents f done (rest ++ [a]) = contents f done rest ++ [f (done ++ rest ++ [a])] := by
  induction rest generalizing done with
  | nil => simp [contents]
  | cons b rest ih => simp [contents, ih]

/-- The contents of the store are those after the writes of the log. -/
def Tracks (f : List α → σ) (v : Versions σ) (l : Log α) : Prop :=
  v = ⟨f l.disk, contents f l.disk l.later⟩

variable {f : List α → σ} {v : Versions σ} {l : Log α}

theorem Tracks.disk (h : Tracks f v l) : v.disk = f l.disk := by rw [h]

theorem tracks_start (f : List α → σ) : Tracks f (.start (f [])) .start := rfl

theorem Tracks.write (h : Tracks f v l) {s : σ} {a : α} (hs : s = f (l.all ++ [a])) :
    Tracks f (v.write s) (l.write a) := by
  rw [Tracks, h, hs, Versions.write, Log.write, contents_concat]
  rfl

theorem Tracks.sync (h : Tracks f v l) (n : ℕ) : Tracks f (v.sync n) (l.sync n) := by
  obtain ⟨done, rest⟩ := l
  obtain rfl := h
  induction n generalizing done rest with
  | zero => simp [Tracks, Log.sync, Versions.sync]
  | succ n ih =>
    cases rest with
    | nil => simp [Tracks, Log.sync, Versions.sync, contents]
    | cons a rest =>
      have hrest := ih (done ++ [a]) rest
      simpa [Tracks, Log.sync, Versions.sync, contents] using hrest

theorem Tracks.flush (h : Tracks f v l) : Tracks f v.flush l.flush := by
  have hlength : v.later.length = l.later.length := by
    rw [h]
    generalize l.disk = done
    induction l.later generalizing done with
    | nil => rfl
    | cons a rest ih => simp [contents, ih]
  rw [Versions.flush, hlength]
  exact h.sync _

theorem Tracks.lose (h : Tracks f v l) : Tracks f v.lose l.lose := by
  rw [Tracks, h]
  rfl

/-- A write that leaves the content on disk as it is reaches the disk at once. -/
theorem Tracks.lose_write (h : Tracks f v l) {a : α} (ha : f (l.disk ++ [a]) = f l.disk) :
    Tracks f v.lose ⟨l.disk ++ [a], []⟩ := by
  rw [Tracks, h, ha]
  rfl

end HCache.UnsyncedWrites
