import OsLab.Reach
import OsLab.Tally
/-!
# ProdConsStep — the producer and its consumers, one read or write at a time

`prodcons.c` (Assignment 4): the producer hands items to `n` consumers through two shared words, `M[0]` and `M[1]`.  Every
read and every write of either word is a step of its own; what a process does in its own memory goes with the access
before it.  `consumptionLoop` is the function of that name, `produce` the part of `main` behind the forks.
-/
namespace OsLab
namespace ProdCons

variable {n : ℕ}

/-- The numbers drawn in one round of the producer: `rand_no` and, counted from 0, `cons_no`. -/
abbrev Item (n : ℕ) := BitVec 32 × Fin n

/-- `item_cnt` and `checksum`, for one consumer. -/
structure Account where
  itemCnt : BitVec 32
  checksum : BitVec 32
  deriving DecidableEq, Repr

def Account.book (a : Account) (v : BitVec 32) : Account := ⟨a.itemCnt + 1, a.checksum + v⟩

/-- The access of a consumer that comes next. -/
inductive ConsumerPc where
  /-- `while(M[0]!=-1)` -/
  | testEnd
  /-- `while(M[0]!=consumer_no)` -/
  | testMine
  /-- `if(M[0]==-1)` -/
  | testStop
  /-- `item_cnt++; checksum += M[1]` -/
  | read
  /-- `M[0] = 0` -/
  | clear
  | finished
  deriving DecidableEq, Repr

structure Consumer where
  pc : ConsumerPc
  account : Account
  deriving DecidableEq, Repr

/-- The access of the producer that comes next; `reap i` is the round `i` of the loop of `wait(0)`. -/
inductive ProducerPc (n : ℕ) where
  | await
  | writeAddr (x : Item n)
  | writeItem (x : Item n)
  | writeEnd
  | reap (i : ℕ)
  | finished
  deriving DecidableEq, Repr

/-- `items` are the draws of the rounds still to come, and `account` what the producer has recorded. -/
structure State (n : ℕ) where
  M0 : ℤ
  M1 : BitVec 32
  items : List (Item n)
  producer : ProducerPc n
  account : Fin n → Account
  consumer : Fin n → Consumer

/-- The word that addresses a consumer: its `consumer_no`. -/
def address (c : Fin n) : ℤ := c + 1

/-- The state once consumer `c` has come to `pc` with the account `a`. -/
def State.go (s : State n) (c : Fin n) (pc : ConsumerPc) (a : Account) : State n :=
  { s with consumer := Function.update s.consumer c ⟨pc, a⟩ }

def consumptionLoop (c : Fin n) (s : State n) : Option (State n) :=
  let a := (s.consumer c).account
  match (s.consumer c).pc with
  | .testEnd => some (s.go c (if s.M0 = -1 then .finished else .testMine) a)
  | .testMine => some (s.go c (if s.M0 = address c then .read else .testStop) a)
  | .testStop => some (s.go c (if s.M0 = -1 then .finished else .testMine) a)
  | .read => some (s.go c .clear (a.book s.M1))
  | .clear => some { s.go c .testEnd a with M0 := 0 }
  | .finished => none

/-- The number of consumers that have exited. -/
def exited (s : State n) : ℕ := tally (fun c : Consumer => if c.pc = .finished then 1 else 0) s.consumer

def reapFrom (n i : ℕ) : ProducerPc n := if i < n then .reap i else .finished

/-- `M[1] = rand_no; item_cnt[cons_no-1]++; checksum[cons_no-1]+=rand_no;` -/
def State.record (s : State n) (x : Item n) : State n where
  M0 := s.M0
  M1 := x.1
  items := s.items
  producer := .await
  account := Function.update s.account x.2 ((s.account x.2).book x.1)
  consumer := s.consumer

def produce (s : State n) : Option (State n) :=
  match s.producer with
  | .await =>
    if s.M0 = 0 then
      match s.items with
      | [] => some { s with producer := .writeEnd }
      | x :: items => some { s with producer := .writeAddr x, items := items }
    else some s
  | .writeAddr x => some { s with M0 := address x.2, producer := .writeItem x }
  | .writeItem x => some (s.record x)
  | .writeEnd => some { s with M0 := -1, producer := reapFrom n 0 }
  | .reap i => if i < exited s then some { s with producer := reapFrom n (i + 1) } else none
  | .finished => none

/-- The system of the producer, `none`, and the consumers. -/
def next : Option (Fin n) → State n → Option (State n)
  | none => produce
  | some c => consumptionLoop c

/-- The segment of two words is zeroed, and the rounds of the producer will draw `items`. -/
def start (items : List (Item n)) : State n where
  M0 := 0
  M1 := 0
  items := items
  producer := .await
  account := fun _ => ⟨0, 0⟩
  consumer := fun _ => ⟨.testEnd, ⟨0, 0⟩⟩

def State.allFinished (s : State n) : Prop := s.producer = .finished ∧ ∀ c, (s.consumer c).pc = .finished

instance (s : State n) : Decidable s.allFinished := by unfold State.allFinished; infer_instance

/-- The item that the consumer in `M[0]` is meant to read: the producer may not have written it yet. -/
def State.item (s : State n) : BitVec 32 :=
  match s.producer with
  | .writeItem x => x.1
  | _ => s.M1

/-- A consumer that is about to read `M[1]` finds there the item meant for it. -/
def Settled (a : Option (Fin n)) (s : State n) : Prop := ∀ c, a = some c → (s.consumer c).pc = .read → s.M1 = s.item

instance (a : Option (Fin n)) (s : State n) : Decidable (Settled a s) := by unfold Settled; infer_instance

end ProdCons
end OsLab
