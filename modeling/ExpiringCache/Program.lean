import ExpiringCache.Operation

/-!
# Programs of the host

What the host does, at the top level or inside a callback: it reads the clock, waits, uses its own
memory `μ`, performs operations of the cache, and ends with an answer or in a panic. A panic that
unwinds an operation comes back to the program that performed it, which may go on or panic again.
-/

namespace ExpiringCache

inductive Program (ν η μ α : Type) where
  | done (answer : α)
  | panic (message : String)
  | clock (next : Instant → Program ν η μ α)
  | wait (span : Span) (next : Program ν η μ α)
  | load (next : μ → Program ν η μ α)
  | store (memory : μ) (next : Program ν η μ α)
  | perform (operation : Operation ν η) (next : Except String (Answer ν) → Program ν η μ α)

namespace Program

variable {ν η μ α β : Type}

def bind : Program ν η μ α → (α → Program ν η μ β) → Program ν η μ β
  | done a, f => f a
  | panic message, _ => panic message
  | clock next, f => clock fun t => (next t).bind f
  | wait span next, f => wait span (next.bind f)
  | load next, f => load fun m => (next m).bind f
  | store m next, f => store m (next.bind f)
  | perform op next, f => perform op fun r => (next r).bind f

instance : Monad (Program ν η μ) where
  pure := done
  bind := bind

/-- The clock's reading. -/
def now : Program ν η μ Instant := clock done

def memory : Program ν η μ μ := load done

def remember (f : μ → μ) : Program ν η μ Unit := load fun m => store (f m) (done ())

/-- Performs an operation and catches its panic. -/
def attempt (op : Operation ν η) : Program ν η μ (Except String (Answer ν)) := perform op done

/-- Performs an operation and lets its panic through. -/
def ask (op : Operation ν η) : Program ν η μ (Answer ν) :=
  perform op fun
    | .ok a => done a
    | .error message => panic message

end Program

/-- The host: its predicates, which use its memory only, its key validator, and its functions,
which may do anything a program can. -/
structure Host (ν η μ : Type) where
  accepts : Key → Bool
  consult : η → Instant → μ → Except String Bool × μ
  respond : (c : Callback ν η) → Program ν η μ c.Answer

end ExpiringCache
