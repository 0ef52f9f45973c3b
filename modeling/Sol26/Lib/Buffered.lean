import Mathlib.Tactic

/-!
# Runs over a buffered file

A run ends with a result, with an error that the program reports, or at fault: where it leaves an
array, or goes on for longer than the given number of steps. The input is read in blocks into a
buffer, of which a pointer and a count say how much has been used.
-/
namespace Sol26.Buffered

/-- What comes of a run: a fault, an error that is reported, or a result. -/
inductive Run (α : Type)
  | fault
  | goof
  | ok (a : α)
deriving DecidableEq

namespace Run

variable {α β : Type} {x : Run α} {f : α → Run β}

protected def bind (x : Run α) (f : α → Run β) : Run β :=
  match x with
  | .fault => .fault
  | .goof => .goof
  | .ok a => f a

instance : Monad Run where
  pure := .ok
  bind := Run.bind

@[simp] theorem ok_bind (a : α) (f : α → Run β) : (Run.ok a >>= f) = f a := rfl

@[simp] theorem fault_bind (f : α → Run β) : ((Run.fault : Run α) >>= f) = .fault := rfl

/-- The run is not at fault, and its result is as said. -/
def Meets (x : Run α) (post : α → Prop) : Prop :=
  match x with
  | .fault => False
  | .goof => True
  | .ok a => post a

theorem Meets.bind {post : α → Prop} {post' : β → Prop} (hx : x.Meets post)
    (hf : ∀ a, post a → (f a).Meets post') : (x >>= f).Meets post' := by
  cases x with
  | fault => exact hx.elim
  | goof => trivial
  | ok a => exact hf a hx

theorem Meets.mono {post post' : α → Prop} (hx : x.Meets post) (h : ∀ a, post a → post' a) :
    x.Meets post' := by
  cases x with
  | fault => exact hx.elim
  | goof => trivial
  | ok a => exact h a hx

/-- The run ends with a result, which is as said. -/
def Yields (x : Run α) (post : α → Prop) : Prop := ∃ a, x = .ok a ∧ post a

theorem Yields.bind {post : α → Prop} {post' : β → Prop} (hx : x.Yields post)
    (hf : ∀ a, post a → (f a).Yields post') : (x >>= f).Yields post' := by
  obtain ⟨a, rfl, ha⟩ := hx
  exact hf a ha

theorem Yields.mono {post post' : α → Prop} (hx : x.Yields post) (h : ∀ a, post a → post' a) :
    x.Yields post' := by
  obtain ⟨a, rfl, ha⟩ := hx
  exact ⟨a, rfl, h a ha⟩

theorem meets_true : x.Meets (fun _ => True) ↔ x ≠ .fault := by
  cases x <;> simp [Meets]

end Run

/-! ### The input -/

def bufsiz : ℕ := 1024

structure Input where
  /-- What is left of the file. -/
  infile : List (BitVec 8)
  inbuff : ℕ → BitVec 8
  inp : ℕ
  inleft : ℤ

namespace Input

/-- `inleft = read(infile, inp = &inbuff[0], BUFSIZ)` -/
def read (s : Input) : Input where
  infile := s.infile.drop bufsiz
  inbuff k := (s.infile.take bufsiz).getD k (s.inbuff k)
  inp := 0
  inleft := (s.infile.take bufsiz).length

/-- `*inp++` -/
def next (s : Input) : Run (BitVec 8 × Input) :=
  if s.inp < bufsiz then .ok (s.inbuff s.inp, { s with inp := s.inp + 1 }) else .fault

/-- What is left in the buffer is inside of it. -/
def Inside (s : Input) : Prop := 0 < s.inleft → s.inp + s.inleft ≤ bufsiz

/-- The bytes that are still to come. -/
def rest (s : Input) : ℕ := s.inleft.toNat + s.infile.length

theorem next_eq {s : Input} (h : s.inp < bufsiz) :
    s.next = .ok (s.inbuff s.inp, { s with inp := s.inp + 1 }) := if_pos h

theorem read_inside (s : Input) : s.read.Inside := by
  intro _
  simp only [read, List.length_take]
  omega

theorem read_rest {s : Input} (h : s.inleft ≤ 0) : s.read.rest = s.rest := by
  simp only [rest, read, List.length_take, List.length_drop]
  omega

/-- A block is read if none is left. -/
theorem Inside.refill {s : Input} (hs : s.Inside) :
    (if s.inleft ≤ 0 then s.read else s).Inside ∧
      (if s.inleft ≤ 0 then s.read else s).rest = s.rest := by
  split_ifs with hempty
  · exact ⟨s.read_inside, read_rest hempty⟩
  · exact ⟨hs, rfl⟩

/-- A byte that is left is taken from the buffer. -/
theorem Inside.take {s : Input} (hs : s.Inside) (hleft : 0 < s.inleft) :
    ∃ s', next { s with inleft := s.inleft - 1 } = .ok (s.inbuff s.inp, s') ∧ s'.Inside ∧
      s'.rest < s.rest := by
  have hbound := hs hleft
  refine ⟨_, next_eq (by dsimp only; omega), ?_, ?_⟩
  · intro _
    dsimp only
    push_cast
    omega
  · unfold rest
    dsimp only
    omega

end Input

end Sol26.Buffered
