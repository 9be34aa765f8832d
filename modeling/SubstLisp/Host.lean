import SubstLisp.Environment

/-!
# Host functions from typed functions

A host function may be written as a function between ordinary types: `FromValue` says how its
parameter is taken from the argument and `ToValue` how its result becomes a value.
-/

namespace SubstLisp

variable {ι σ α β : Type}

/-- Types that a host function may take its argument as. -/
class FromValue (ι : Type) (α : Type) where
  /-- The argument as an element of the type, or the error of an unsuitable argument. -/
  fromValue : Value ι → Except Error α

/-- Types that a host function may return. -/
class ToValue (ι : Type) (α : Type) where
  /-- The value that an element of the type becomes. -/
  toValue : α → Value ι

export FromValue (fromValue)

export ToValue (toValue)

/-! ### Arguments -/

/-- Any argument will do. -/
instance : FromValue ι (Value ι) := ⟨.ok⟩

/-- The argument has to be a number. -/
instance : FromValue ι Int64 where
  fromValue v :=
    match v.number? with
    | some n => .ok n
    | none => .error (.typing (.expectedNumber v.kind))

/-- The argument has to be a string. -/
instance : FromValue ι String where
  fromValue v :=
    match v.string? with
    | some text => .ok text
    | none => .error (.typing (.expectedString v.kind))

/-- Any argument will do, and counts as true or false. -/
instance : FromValue ι Bool := ⟨fun v => .ok v.truthy⟩

/-- Any argument will do, and is ignored. -/
instance : FromValue ι Unit := ⟨fun _ => .ok ()⟩

/-! ### Results -/

instance : ToValue ι (Value ι) := ⟨id⟩

instance : ToValue ι String := ⟨.string⟩

instance : ToValue ι Bool := ⟨.ofBool⟩

instance : ToValue ι Unit := ⟨fun _ => .nil⟩

instance : ToValue ι (Form ι) := ⟨.quote⟩

instance : ToValue ι Int64 := ⟨.number⟩

instance : ToValue ι Int32 := ⟨fun n => .number n.toInt64⟩

instance : ToValue ι Int16 := ⟨fun n => .number n.toInt64⟩

instance : ToValue ι Int8 := ⟨fun n => .number n.toInt64⟩

instance : ToValue ι UInt32 := ⟨fun n => .number n.toUInt64.toInt64⟩

instance : ToValue ι UInt16 := ⟨fun n => .number n.toUInt64.toInt64⟩

instance : ToValue ι UInt8 := ⟨fun n => .number n.toUInt64.toInt64⟩

/-- Nothing is the value of an absent result. -/
instance [ToValue ι α] : ToValue ι (Option α) := ⟨fun a => a.elim .nil toValue⟩

/-- A list of results is a list of values. -/
instance [ToValue ι α] : ToValue ι (List α) := ⟨fun as => .list (as.map toValue)⟩

/-! ### Functions -/

namespace HostFunction

/-- The host function of a typed action on the world. -/
def ofAction [FromValue ι α] [ToValue ι β] (f : α → EStateM Error (World σ) β) :
    HostFunction ι σ := fun v => do
  match fromValue v with
  | .error error => throw error
  | .ok a => return toValue (← f a)

/-- The host function of a typed function that may fail. -/
def ofPartial [FromValue ι α] [ToValue ι β] (f : α → Except Error β) : HostFunction ι σ :=
  ofAction fun a => match f a with
    | .error error => throw error
    | .ok b => return b

/-- The host function of a typed function. -/
def ofFun [FromValue ι α] [ToValue ι β] (f : α → β) : HostFunction ι σ :=
  ofAction fun a => return f a

/-- Takes a fresh label from the supply of the world. -/
def mintLabel : EStateM Error (World σ) Nat := fun world =>
  .ok world.next { world with next := world.next + 1 }

end HostFunction

end SubstLisp
