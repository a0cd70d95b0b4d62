import Mathlib.Logic.Function.Basic

/-!
# Allocators and their clients

An allocator hands out blocks of memory.  A client owns the blocks it was given until it gives
them back: the words of a block are the ones that the client wrote there, whatever it does with
its other blocks.  What a client asks for next may depend on all the answers so far.

Main results:

- Theorem {lit}`play_spec`: an implementation whose every legal call is a step of the
  specification answers a careful client as the specification allows, for any number of calls.

Current gaps:

- When a request may be refused is left to the implementation.
-/

namespace TestAio
namespace Library
namespace Allocator

/-- What a client can ask for. -/
inductive Call (Ptr Word : Type)
  | alloc (size : Nat)
  | free (ptr : Option Ptr)
  | realloc (ptr : Option Ptr) (size : Nat)
  | store (ptr : Ptr) (index : Nat) (word : Word)
  | load (ptr : Ptr) (index : Nat)

/-- What a client is told. -/
inductive Reply (Ptr Word : Type)
  | pointer (ptr : Option Ptr)
  | done
  | word (word : Word)
deriving DecidableEq

/-- The words of the blocks that a client owns. -/
abbrev Memory (Ptr Word : Type) :=
  Ptr → Option (List Word)

section Specification

variable {Ptr Word : Type}

/-- A client that owns nothing. -/
def empty : Memory Ptr Word :=
  fun _ => none

/-- The calls that a client may make: sizes below a bound, and blocks that it owns. -/
def Legal (bound : Nat) (memory : Memory Ptr Word) : Call Ptr Word → Prop
  | .alloc size => size < bound
  | .free none => True
  | .free (some ptr) => ∃ words, memory ptr = some words
  | .realloc none size => size < bound
  | .realloc (some ptr) size => size < bound ∧ ∃ words, memory ptr = some words
  | .store ptr index _ => ∃ words, memory ptr = some words ∧ index < words.length
  | .load ptr index => ∃ words, memory ptr = some words ∧ index < words.length

variable [DecidableEq Ptr]

/-- What a call may do.  A new block is not one that the client owns, a block that changes its
size keeps the words that both sizes have, and nothing else changes. -/
inductive Step : Memory Ptr Word → Call Ptr Word → Reply Ptr Word → Memory Ptr Word → Prop
  | refused (memory : Memory Ptr Word) (size : Nat) :
      Step memory (.alloc size) (.pointer none) memory
  | alloc {memory : Memory Ptr Word} {size : Nat} {ptr : Ptr} {words : List Word}
      (hnew : memory ptr = none) (hsize : size ≤ words.length) :
      Step memory (.alloc size) (.pointer (some ptr)) (Function.update memory ptr (some words))
  | freeNull (memory : Memory Ptr Word) : Step memory (.free none) .done memory
  | free (memory : Memory Ptr Word) (ptr : Ptr) :
      Step memory (.free (some ptr)) .done (Function.update memory ptr none)
  | reallocRefused (memory : Memory Ptr Word) (ptr : Option Ptr) {size : Nat}
      (hsize : 0 < size) :
      Step memory (.realloc ptr size) (.pointer none) memory
  | reallocNullNone (memory : Memory Ptr Word) :
      Step memory (.realloc none 0) (.pointer none) memory
  | reallocNone (memory : Memory Ptr Word) (ptr : Ptr) :
      Step memory (.realloc (some ptr) 0) (.pointer none) (Function.update memory ptr none)
  | reallocNull {memory : Memory Ptr Word} {size : Nat} {ptr : Ptr} {words : List Word}
      (hnew : memory ptr = none) (hsize : size ≤ words.length) :
      Step memory (.realloc none size) (.pointer (some ptr))
        (Function.update memory ptr (some words))
  | realloc {memory : Memory Ptr Word} {size : Nat} {ptr ptr' : Ptr} {words words' : List Word}
      (hold : memory ptr = some words) (hnew : Function.update memory ptr none ptr' = none)
      (hsize : size ≤ words'.length)
      (hkeep : words'.take (min words.length size) = words.take (min words.length size)) :
      Step memory (.realloc (some ptr) size) (.pointer (some ptr'))
        (Function.update (Function.update memory ptr none) ptr' (some words'))
  | store {memory : Memory Ptr Word} {ptr : Ptr} {words : List Word} (index : Nat) (word : Word)
      (hold : memory ptr = some words) :
      Step memory (.store ptr index word) .done
        (Function.update memory ptr (some (words.set index word)))
  | load {memory : Memory Ptr Word} {ptr : Ptr} {words : List Word} {index : Nat} {word : Word}
      (hold : memory ptr = some words) (hword : words[index]? = some word) :
      Step memory (.load ptr index) (.word word) memory

/-- The exchanges that the specification allows, and what the client owns afterwards. -/
inductive History : List (Call Ptr Word × Reply Ptr Word) → Memory Ptr Word → Prop
  | nil : History [] empty
  | snoc {exchanges : List (Call Ptr Word × Reply Ptr Word)} {memory memory' : Memory Ptr Word}
      {call : Call Ptr Word} {reply : Reply Ptr Word} (before : History exchanges memory)
      (last : Step memory call reply memory') : History (exchanges ++ [(call, reply)]) memory'

/-- A client chooses the next call. -/
abbrev Client (Ptr Word : Type) :=
  List (Call Ptr Word × Reply Ptr Word) → Call Ptr Word

/-- A client that makes legal calls only, as long as it is answered as specified. -/
def Careful (bound : Nat) (client : Client Ptr Word) : Prop :=
  ∀ exchanges memory, History exchanges memory → Legal bound memory (client exchanges)

section Play

variable {State : Type}

/-- A number of calls of a client to an implementation; nothing when a call goes wrong. -/
def play (exec : State → Call Ptr Word → Option (Reply Ptr Word × State))
    (client : Client Ptr Word) :
    Nat → List (Call Ptr Word × Reply Ptr Word) → State →
      Option (List (Call Ptr Word × Reply Ptr Word) × State)
  | 0, exchanges, state => some (exchanges, state)
  | rounds + 1, exchanges, state =>
      match exec state (client exchanges) with
      | none => none
      | some (reply, state) =>
          play exec client rounds (exchanges ++ [(client exchanges, reply)]) state

/-- An implementation whose every legal call is a step of the specification answers a careful
client as the specification allows. -/
theorem play_spec {exec : State → Call Ptr Word → Option (Reply Ptr Word × State)}
    {client : Client Ptr Word} {bound : Nat} (Holds : State → Memory Ptr Word → Prop)
    (hcareful : Careful bound client)
    (hstep : ∀ {state memory call}, Holds state memory → Legal bound memory call →
      ∃ reply state' memory', exec state call = some (reply, state') ∧
        Step memory call reply memory' ∧ Holds state' memory')
    {exchanges : List (Call Ptr Word × Reply Ptr Word)} {memory : Memory Ptr Word}
    {state : State} (hhistory : History exchanges memory) (hholds : Holds state memory)
    (rounds : Nat) :
    ∃ exchanges' state' memory',
      play exec client rounds exchanges state = some (exchanges', state') ∧
        exchanges'.length = exchanges.length + rounds ∧ History exchanges' memory' ∧
        Holds state' memory' := by
  induction rounds generalizing exchanges memory state with
  | zero => exact ⟨exchanges, state, memory, rfl, rfl, hhistory, hholds⟩
  | succ rounds ih =>
      rcases hstep hholds (hcareful exchanges memory hhistory) with
        ⟨reply, state', memory', hexec, hspec, hholds'⟩
      rcases ih (hhistory.snoc hspec) hholds' with
        ⟨exchanges', last, memory'', hplay, hlength, hhistory', hend⟩
      refine ⟨exchanges', last, memory'', ?_, ?_, hhistory', hend⟩
      · rw [play, hexec]
        exact hplay
      · rw [hlength, List.length_append, List.length_singleton]
        omega

end Play

end Specification

end Allocator
end Library
end TestAio
