import ReferralForest.Error

/-!
# Programs of a write transaction

A program reads, sets and deletes keys one after the other, each step depending
on what was read before, and ends with an answer or an error. What a program
does is fixed apart from any store; a store runs it. A failing step ends the
program, and so does nothing else.
-/

namespace ReferralForest

inductive Tx (α : Type) : Type
  | done (answer : α)
  | fail (error : StoreError)
  | get (key : Bytes) (next : Option Bytes → Tx α)
  | put (key value : Bytes) (next : Tx α)
  | delete (key : Bytes) (next : Bool → Tx α)

namespace Tx
variable {α β γ : Type}

def bind : Tx α → (α → Tx β) → Tx β
  | done a, f => f a
  | fail e, _ => fail e
  | get k next, f => get k fun v => (next v).bind f
  | put k v next, f => put k v (next.bind f)
  | delete k next, f => delete k fun existed => (next existed).bind f

instance : Monad Tx where
  pure := done
  bind := bind

theorem bind_done (t : Tx α) : t.bind done = t := by
  induction t with
  | done => rfl
  | fail => rfl
  | get k next ih => exact congrArg (get k) (funext ih)
  | put k v next ih => exact congrArg (put k v) ih
  | delete k next ih => exact congrArg (delete k) (funext ih)

theorem bind_assoc (t : Tx α) (f : α → Tx β) (g : β → Tx γ) :
    (t.bind f).bind g = t.bind fun a => (f a).bind g := by
  induction t with
  | done => rfl
  | fail => rfl
  | get k next ih => exact congrArg (get k) (funext ih)
  | put k v next ih => exact congrArg (put k v) ih
  | delete k next ih => exact congrArg (delete k) (funext ih)

instance : LawfulMonad Tx :=
  LawfulMonad.mk' Tx (fun t => bind_done t) (fun _ _ => rfl) (fun t f g => bind_assoc t f g)

def read (key : Bytes) : Tx (Option Bytes) := get key done
def write (key value : Bytes) : Tx Unit := put key value (done ())

def remove (key : Bytes) : Tx Bool := delete key done

def readAs (key : Bytes) (decode : Bytes → Except Malformed α) : Tx (Option α) :=
  get key fun
    | some value =>
      match decode value with
      | .ok a => done (some a)
      | .error cause => fail (.serialization cause)
    | none => done none

end Tx
end ReferralForest
