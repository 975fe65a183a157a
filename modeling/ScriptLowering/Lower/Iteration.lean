import ScriptLowering.Lower.Expression

/-!
# Loops

The five loops, put together from computations for their parts. State that a loop keeps from one
iteration to the next lives in carriers, so that it survives a suspension in the body.

A `for`-`of` whose body cannot suspend runs inside a protected region whose finally handler closes
the iterator, unless the iterator itself has ended the loop. No region can span a suspension, so a
`for`-`of` with a suspending body closes its iterator only on a break.
-/

namespace ScriptLowering.Lower

/-- `while`. -/
def whileLoop (name : Option String) (test : Lower Temp) (body : Lower Unit) : Lower Unit := do
  let head ← freshLabel
  let finish ← freshLabel
  place head
  let holds ← condition test
  branchIf false holds finish
  within (.loop finish head name) body
  branch head
  place finish

/-- `do`-`while`. -/
def doWhileLoop (name : Option String) (body : Lower Unit) (test : Lower Temp) : Lower Unit := do
  let top ← freshLabel
  let next ← freshLabel
  let finish ← freshLabel
  place top
  within (.loop finish next name) body
  place next
  let holds ← condition test
  branchIf true holds top
  place finish

/-- `for`. Each iteration has its own copy of the captured bindings of the loop head. -/
def forLoop (name : Option String) (scope : Option ScopeId) (init : Lower Unit)
    (test : Option (Lower Temp)) (update : Lower Unit) (body : Lower Unit) : Lower Unit := do
  let head ← freshLabel
  let next ← freshLabel
  let finish ← freshLabel
  inScope scope do
    init
    place head
    match test with
    | none => pure ()
    | some test =>
      let holds ← condition test
      branchIf false holds finish
    within (.loop finish next name) body
    place next
    renewBlock scope
    update
    branch head
    place finish

/-- Adds one to the number in a carrier. -/
def increment (carrier : Carrier) : Lower Unit := do
  let current ← loadCarrier carrier
  let one ← number (.ofNat 1)
  let next ← define .double (.numeric .add current one)
  storeCarrier carrier next

/-- `for`-`in`. The keys are enumerated once, when the loop starts. -/
def forInLoop (name : Option String) (scope : Option ScopeId) (bind : Temp → Lower Unit)
    (object : Lower Temp) (body : Lower Unit) : Lower Unit := do
  let head ← freshLabel
  let next ← freshLabel
  let finish ← freshLabel
  let object ← asObject (← object)
  let keys ← define .array (.callRuntime .enumerateKeys [object])
  let length ← define .double (.getLength keys)
  let keysCarrier ← durableCarrier "forInKeys" .array
  let lengthCarrier ← durableCarrier "forInLength" .double
  let indexCarrier ← durableCarrier "forInIndex" .double
  storeCarrier keysCarrier keys
  storeCarrier lengthCarrier length
  storeCarrier indexCarrier (← number (.ofNat 0))
  place head
  let index ← loadCarrier indexCarrier
  let length ← loadCarrier lengthCarrier
  let more ← define .bool (.compare .lt index length)
  branchIf false more finish
  let keys ← loadCarrier keysCarrier
  let key ← define .object (.getElement keys index)
  inScope scope do
    bind key
    within (.loop finish next name) body
  place next
  increment indexCarrier
  branch head
  place finish

/-! ### Iterators -/

/-- The iterator of an iterable. -/
def getIterator (iterable : Lower Temp) : Lower Temp := do
  let iterable ← asObject (← iterable)
  define (.reference .iterator) (.callRuntime .getIterator [iterable])

/-- The next value of the iterator; when there is none, jumps to `exhausted`. -/
def iteratorStep (iterator : Carrier) (exhausted : Label) : Lower Temp := do
  let iterator ← loadCarrier iterator
  let step ← define .object (.callRuntime .iteratorNext [iterator])
  let done ← define .bool (.callRuntime .iteratorResultDone [step])
  let hasValue ← freshLabel
  branchIf false done hasValue
  branch exhausted
  place hasValue
  define .object (.callRuntime .iteratorResultValue [step])

/-- Closes the iterator. -/
def closeIterator (iterator : Carrier) : Lower Unit := do
  let iterator ← loadCarrier iterator
  let _ ← define .object (.callRuntime .iteratorClose [iterator])

/-- The protected range of a `for`-`of` loop: its iterations. -/
def forOfRange (scope : Option ScopeId) (bind : Temp → Lower Unit) (body : Lower Unit)
    (iterator done : Carrier) (head exhausted finish : Label) : Lower Unit := do
  place head
  storeCarrier done (← bool true)
  let value ← iteratorStep iterator exhausted
  storeCarrier done (← bool false)
  inScope scope do
    bind value
    body
  branch head
  place exhausted
  emit (.leave finish)

/-- The handler of a `for`-`of` loop, which closes the iterator. -/
def forOfHandler (iterator done : Carrier) (skipClose : Label) : Lower Unit := do
  let isDone ← loadCarrier done
  branchIf true isDone skipClose
  closeIterator iterator
  place skipClose
  emit .endFinally

/-- `for`-`of` with a body that cannot suspend. The flag says that the iterator is done; it is also
set while the iterator computes its next value, since an iterator that fails is not closed. -/
def forOfLoop (name : Option String) (scope : Option ScopeId) (bind : Temp → Lower Unit)
    (iterable : Lower Temp) (body : Lower Unit) : Lower Unit := do
  let tryStart ← freshLabel
  let head ← freshLabel
  let exhausted ← freshLabel
  let handlerStart ← freshLabel
  let skipClose ← freshLabel
  let handlerEnd ← freshLabel
  let finish ← freshLabel
  let iterator ← getIterator iterable
  let iteratorCarrier ← joinCarrier "iterator" (.reference .iterator)
  storeCarrier iteratorCarrier iterator
  let doneCarrier ← joinCarrier "iteratorDone" .bool
  storeCarrier doneCarrier (← bool false)
  within (.loop finish head name) do
    within .guarded do
      place tryStart
      forOfRange scope bind body iteratorCarrier doneCarrier head exhausted finish
  place handlerStart
  within .finallyHandler (forOfHandler iteratorCarrier doneCarrier skipClose)
  place handlerEnd
  addRegion
    { kind := .finallyHandler, tryStart, tryEnd := handlerStart, handlerStart, handlerEnd }
  place finish

/-- `for`-`of` with a body that may suspend. -/
def suspendingForOfLoop (name : Option String) (scope : Option ScopeId) (bind : Temp → Lower Unit)
    (iterable : Lower Temp) (body : Lower Unit) : Lower Unit := do
  let head ← freshLabel
  let close ← freshLabel
  let finish ← freshLabel
  let iterator ← getIterator iterable
  let iteratorCarrier ← durableCarrier "iterator" (.reference .iterator)
  storeCarrier iteratorCarrier iterator
  place head
  let value ← iteratorStep iteratorCarrier finish
  inScope scope do
    bind value
    within (.loop close head name) body
  branch head
  place close
  closeIterator iteratorCarrier
  place finish

end ScriptLowering.Lower
