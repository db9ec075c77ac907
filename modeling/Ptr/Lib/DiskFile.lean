import Ptr.Lib.Bytes

/-!
# Files and what a crash leaves of them

A file has bytes that were synchronized and bytes that were only written.  A
reader of a running system sees both.  A crash keeps the synchronized bytes and
some prefix of the others; it may also bring back what a truncation removed that
was not synchronized (`Settles`).
-/

namespace Ptr.Lib

open List

structure DiskFile where
  durable : Bytes
  pending : Bytes
  /-- Synchronized bytes behind `durable` that a truncation removed since. -/
  removed : Bytes

namespace DiskFile

def synced (bs : Bytes) : DiskFile := ⟨bs, [], []⟩

def empty : DiskFile := synced []

def content (f : DiskFile) : Bytes := f.durable ++ f.pending

def write (bs : Bytes) (f : DiskFile) : DiskFile := { f with pending := f.pending ++ bs }

def syncPart (k : Nat) (f : DiskFile) : DiskFile :=
  ⟨f.durable ++ f.pending.take k, f.pending.drop k, if k = 0 then f.removed else []⟩

def sync (f : DiskFile) : DiskFile := synced f.content

def truncate (n : Nat) (f : DiskFile) : DiskFile :=
  ⟨f.durable.take n, f.pending.take (n - f.durable.length), f.durable.drop n ++ f.removed⟩

def Settles (f f' : DiskFile) : Prop :=
  (∃ k, f' = synced (f.durable ++ f.pending.take k)) ∨ f' = synced (f.durable ++ f.removed)

variable (f : DiskFile)

@[simp] theorem content_synced (bs : Bytes) : (synced bs).content = bs := by
  simp [synced, content]

@[simp] theorem content_write (bs : Bytes) : (f.write bs).content = f.content ++ bs := by
  simp [write, content]

@[simp] theorem content_syncPart (k : Nat) : (f.syncPart k).content = f.content := by
  simp [syncPart, content]

@[simp] theorem content_sync : f.sync.content = f.content := by simp [sync]

@[simp] theorem content_truncate (n : Nat) : (f.truncate n).content = f.content.take n := by
  simp [truncate, content, take_append]

theorem durable_prefix_syncPart (k : Nat) : f.durable <+: (f.syncPart k).durable :=
  prefix_append _ _

theorem durable_prefix_content : f.durable <+: f.content := prefix_append _ _

variable {f}

/-- **A crash** leaves a prefix of what a reader saw that has at least the
synchronized bytes, or takes a truncation back. -/
theorem Settles.cases {f'} (h : f.Settles f') :
    (∃ bs, f' = synced bs ∧ f.durable <+: bs ∧ bs <+: f.content) ∨
      f' = synced (f.durable ++ f.removed) := by
  rcases h with ⟨k, rfl⟩ | rfl
  · refine .inl ⟨_, rfl, prefix_append _ _, ?_⟩
    exact (prefix_append_right_inj _).mpr <| take_prefix k _
  · exact .inr rfl

theorem Settles.synced {bs f'} (h : (synced bs).Settles f') : f' = .synced bs := by
  rcases h with ⟨k, rfl⟩ | rfl <;> simp [DiskFile.synced]

theorem settles_content (f : DiskFile) : f.Settles (.synced f.content) :=
  .inl ⟨f.pending.length, by rw [take_length]; rfl⟩

theorem Settles.of_syncPart {k f'} (h : (f.syncPart k).Settles f') : f.Settles f' := by
  rcases h with ⟨j, rfl⟩ | rfl
  · refine .inl ⟨k + j, ?_⟩
    simp [syncPart, take_add]
  by_cases hk : k = 0
  · subst hk
    exact .inr (by simp [syncPart])
  · exact .inl ⟨k, by simp [syncPart, hk]⟩

end DiskFile

end Ptr.Lib
