import SubstLisp.Definition
import SubstLisp.Form.Copy
import SubstLisp.Table

/-!
# Environments

The one global table of names in which programs run: bindings, the host functions that the
embedding program offers, and a limit on the depth of evaluation. There are no nested scopes, and
nothing is ever unbound.

A host function takes one evaluated argument. It may change the state of its host and may take
fresh labels for forms that it makes.
-/

namespace SubstLisp

/-- What host functions act on: the supply of labels and the state of the host. -/
structure World (σ : Type) where
  /-- The next number of the supply. -/
  next : Nat
  /-- The state of the host. -/
  host : σ

/-- A function of the embedding program. -/
abbrev HostFunction (ι σ : Type) := Value ι → EStateM Error (World σ) (Value ι)

/-- A global table of names. -/
structure Environment (ι σ : Type) where
  /-- What names are bound to. -/
  bindings : Table (Binding ι)
  /-- The host functions. -/
  hosts : Table (HostFunction ι σ)
  /-- How deep evaluation may nest; there may be no limit. -/
  maxDepth : Option Nat

namespace Environment

variable {ι σ : Type}

/-- The environment in which nothing is bound. -/
def empty : Environment ι σ := ⟨.empty, .empty, none⟩

instance : Inhabited (Environment ι σ) := ⟨empty⟩

/-- What a name is bound to. -/
def find? (env : Environment ι σ) (name : String) : Option (Binding ι) := env.bindings.find? name

/-- The plain value that a name is bound to. -/
def value? (env : Environment ι σ) (name : String) : Option (Value ι) :=
  (env.find? name).bind Binding.value?

/-- The environment in which a name has a given binding. -/
def define (env : Environment ι σ) (name : String) (binding : Binding ι) : Environment ι σ :=
  { env with bindings := env.bindings.insert name binding }

/-- The environment with one more host function. -/
def register (env : Environment ι σ) (name : String) (function : HostFunction ι σ) :
    Environment ι σ :=
  { env with hosts := env.hosts.insert name function }

@[simp]
theorem find?_define (env : Environment ι σ) (name other : String) (binding : Binding ι) :
    (env.define name binding).find? other =
      if other = name then some binding else env.find? other :=
  Table.find?_insert env.bindings name other binding

end Environment

end SubstLisp
