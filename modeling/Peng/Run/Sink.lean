/-!
# Sinks

Where a program writes. A sink may take a limited number of bytes in all: it keeps what fits
and refuses the rest.
-/

namespace Peng

/-- What was written so far, and how much may be written in all. -/
structure Sink where
  limit : Option Nat
  written : ByteArray

namespace Sink

/-- A sink that nothing was written to yet. -/
def empty (limit : Option Nat) : Sink :=
  ⟨limit, .empty⟩

/-- Writes as much of the bytes as there is room for, and says whether that was all. -/
def write (s : Sink) (bytes : ByteArray) : Sink × Bool :=
  match s.limit with
  | none => (⟨none, s.written ++ bytes⟩, true)
  | some limit =>
    let room := limit - s.written.size
    if bytes.size ≤ room then (⟨some limit, s.written ++ bytes⟩, true)
    else (⟨some limit, s.written ++ bytes.extract 0 room⟩, false)

@[simp] theorem write_limit (s : Sink) (bytes : ByteArray) :
    (s.write bytes).1.limit = s.limit := by
  unfold write
  split
  · simp_all
  · dsimp only
    split <;> simp_all

/-- A sink without a limit takes everything. -/
theorem write_of_limit_eq_none {s : Sink} (h : s.limit = none) (bytes : ByteArray) :
    s.write bytes = (⟨none, s.written ++ bytes⟩, true) := by
  simp [write, h]

end Sink

end Peng
