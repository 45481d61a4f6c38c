import ExpiringCache.Entry
import ExpiringCache.Policy.Text
import ExpiringCache.Script.Memory

/-!
# Policies and entries on their own

A shelf keeps policies and entries by name, without a cache, under a clock of its own. A moment
that a step leaves out is the clock's reading.
-/

namespace ExpiringCache.Script

/-- Where an entry's policy comes from. -/
inductive Source where
  | none
  | stored (name : String)
  | recipe (recipe : Recipe)

inductive ShelfStep (ν : Type) where
  | advance (span : Span)
  | setFlag (name : String) (value : Bool)
  | define (name : String) (recipe : Recipe)
  /-- Stores what an access makes of a policy. -/
  | access (source name : String) (moment : Option Instant)
  | show (name : String)
  | text (name : String)
  | expired (name : String) (moment : Option Instant)
  | insert (name : String) (value : ν) (policy : Source) (moment : Option Instant)
  | touch (name : String) (moment : Option Instant)
  | copy (source name : String)
  | showEntry (name : String)
  | entryExpired (name : String) (moment : Option Instant)

inductive ShelfAnswer (ν : Type) where
  | done
  | policy (policy : Policy (Hook ν))
  | entry (entry : Entry ν (Hook ν))
  | flag (b : Bool)
  | text (text : String)
  | panicked (message : String)
  /-- Nothing is stored under the name. -/
  | missing

structure Shelf (ν : Type) where
  now : Instant
  memory : Memory ν
  entries : Table String (Entry ν (Hook ν))

namespace Shelf

variable {ν : Type}

def empty : Shelf ν := ⟨.zero, .empty, .empty⟩

abbrev Turn (ν : Type) := ShelfAnswer ν × Shelf ν

def storePolicy (s : Shelf ν) (name : String) (policy : Policy (Hook ν)) : Turn ν :=
  (.policy policy, { s with memory := s.memory.define name policy })

def storeEntry (s : Shelf ν) (name : String) (entry : Entry ν (Hook ν)) : Turn ν :=
  (.entry entry, { s with entries := s.entries.put name entry })

def withPolicy (s : Shelf ν) (name : String) (f : Policy (Hook ν) → Turn ν) : Turn ν :=
  match s.memory.policies.get? name with
  | some policy => f policy
  | none => (.missing, s)

def withEntry (s : Shelf ν) (name : String) (f : Entry ν (Hook ν) → Turn ν) : Turn ν :=
  match s.entries.get? name with
  | some entry => f entry
  | none => (.missing, s)

/-- A question to a predicate, in a state that keeps the memory. -/
abbrev Asking (ν : Type) := EStateM String (Memory ν)

def consult (predicate : Hook ν) (now : Instant) : Asking ν Bool := fun m =>
  match predicate.consult now m with
  | (.ok b, m) => .ok b m
  | (.error message, m) => .error message m

/-- Answers a question and keeps the memory it leaves behind. -/
def answer (s : Shelf ν) (question : Asking ν Bool) : Turn ν :=
  match question.run s.memory with
  | .ok b m => (.flag b, { s with memory := m })
  | .error message m => (.panicked message, { s with memory := m })

/-- Puts a new entry on the shelf. -/
def insert (s : Shelf ν) (name : String) (value : ν) (policy : Option (Policy (Hook ν)))
    (now : Instant) : Turn ν :=
  s.storeEntry name (.insertedAt now value policy 0)

def take (s : Shelf ν) : ShelfStep ν → Turn ν
  | .advance span => (.done, { s with now := s.now.advance span })
  | .setFlag name value => (.done, { s with memory := s.memory.setFlag name value })
  | .define name recipe =>
    let (policy, m) := recipe.build s.now s.memory
    storePolicy { s with memory := m } name policy
  | .access source name moment => s.withPolicy source fun policy =>
    s.storePolicy name (policy.accessed (moment.getD s.now))
  | .show name => s.withPolicy name fun policy => (.policy policy, s)
  | .text name => s.withPolicy name fun policy => (.text policy.text, s)
  | .expired name moment => s.withPolicy name fun policy =>
    s.answer (policy.expired consult (moment.getD s.now))
  | .insert name value source moment =>
    let now := moment.getD s.now
    match source with
    | .none => s.insert name value none now
    | .stored policyName => s.withPolicy policyName fun policy =>
      s.insert name value (some policy) now
    | .recipe recipe =>
      let (policy, m) := recipe.build s.now s.memory
      insert { s with memory := m } name value (some policy) now
  | .touch name moment => s.withEntry name fun entry =>
    s.storeEntry name (entry.touch (moment.getD s.now))
  | .copy source name => s.withEntry source fun entry => s.storeEntry name entry
  | .showEntry name => s.withEntry name fun entry => (.entry entry, s)
  | .entryExpired name moment => s.withEntry name fun entry =>
    s.answer (entry.expired consult (moment.getD s.now))

/-- Takes the steps in turn. -/
def run : Shelf ν → List (ShelfStep ν) → List (ShelfAnswer ν)
  | _, [] => []
  | s, step :: rest =>
    let (a, s) := s.take step
    a :: s.run rest

end Shelf

end ExpiringCache.Script
