import SubstLisp.CommandLine.Output
import SubstLisp.Proofs.Hosts
import SubstLisp.Proofs.Twins

/-!
# Transcripts

The printing functions add what they print to the transcript, on behalf of the program, and do
nothing else: they keep no form, do not look at labels and take nothing back. So a program that is
started on a transcript adds to it, and a transcript without what the command itself has said is
the output of the program.

## What is proved

* `startMachine_hostsLead` — the printing functions do nothing but add output of the program.
* `startMachine_twins` — the machine that programs start on is a twin of itself, in the sense in
  which what the command says does not matter.
* `twins_saying` — it stays one when the command says something.
-/

namespace SubstLisp.CommandLine

/-! ### What programs add -/

namespace Transcript

/-- What programs have printed, without what the command itself has said. -/
def ofProgram (t : Transcript) : Transcript := t.filter fun u => u.speaker = .program

/-- The second transcript is the first with more output of programs. -/
def Adds (t t' : Transcript) : Prop :=
  ∃ more : List Utterance, t'.toList = t.toList ++ more ∧ ∀ u ∈ more, u.speaker = .program

instance : Std.Refl Adds := ⟨fun _ => ⟨[], (List.append_nil _).symm, fun _ hu => nomatch hu⟩⟩

instance : IsTrans Transcript Adds where
  trans t t' t'' := by
    rintro ⟨more, ht', hmore⟩ ⟨more', ht'', hmore'⟩
    refine ⟨more ++ more', by rw [ht'', ht', List.append_assoc], ?_⟩
    exact List.forall_mem_append.2 ⟨hmore, hmore'⟩

theorem ofProgram_push_program (t : Transcript) (text : String) :
    ofProgram (t.push ⟨.program, text⟩) = (ofProgram t).push ⟨.program, text⟩ := by
  simp [ofProgram]

theorem ofProgram_push_command (t : Transcript) (text : String) :
    ofProgram (t.push ⟨.command, text⟩) = ofProgram t := by
  simp [ofProgram]

/-- What has been added to nothing is all output of programs. -/
theorem ofProgram_of_adds {t : Transcript} (h : Adds #[] t) : ofProgram t = t := by
  obtain ⟨more, ht, hmore⟩ := h
  rw [ofProgram, Array.filter_eq_self]
  intro u hu
  have hmem : u ∈ more := by simpa [ht] using Array.mem_def.1 hu
  simpa using hmore u hmem

/-- The text of a transcript is the start of what it is with more output. -/
theorem exists_text_of_adds {t t' : Transcript} (h : Adds t t') :
    ∃ more, text t' = text t ++ more := by
  obtain ⟨more, ht', -⟩ := h
  refine ⟨String.join (more.map Utterance.text), ?_⟩
  rw [text, text, ht', List.map_append, String.join_append]

end Transcript

/-! ### The printing functions -/

theorem plainText_erase (v : Value Nat) : plainText v.erase = plainText v := by
  cases v <;> first | rfl | exact Value.text_map _ _

section

variable {ι : Type}

/-- A host function that prints a text made of its argument. -/
def printing (text : Value ι → String) : HostFunction ι Transcript :=
  .ofAction fun v : Value ι => write (text v)

theorem printing_leads (text : Value ι → String) : (printing text).Leads Transcript.Adds :=
  fun v world => ⟨[⟨.program, text v⟩], Array.toList_push, by simp⟩

theorem printing_honest (text : Value Nat → String) :
    HostFunction.Honest (fun _ => []) [] (printing text) := fun _ _ =>
  .single (.keep (List.nil_subset _))

theorem printing_erasesTo {text : Value Nat → String} {text' : Value Unit → String}
    (h : ∀ v : Value Nat, text' v.erase = text v) :
    (printing text).ErasesTo Transcript.ofProgram (printing text') := by
  intro v world next
  have hhost : (Transcript.ofProgram world.host).push ⟨.program, text' v.erase⟩ =
      Transcript.ofProgram (world.host.push ⟨.program, text v⟩) := by
    rw [h, Transcript.ofProgram_push_program]
  exact .ok rfl hhost

end

/-! ### The machine that programs start on -/

variable {maxDepth? : Option Nat}

theorem find?_startMachine_hosts {ι : Type} (maxDepth? : Option Nat) (name : String) :
    (startMachine maxDepth? : Machine ι Transcript).environment.hosts.find? name =
      if name = "print" then some printLine
      else if name = "printf" then some printValue
      else none := by
  show ((Table.empty.insert "printf" printValue).insert "print" printLine).find? name = _
  rw [Table.find?_insert, Table.find?_insert, Table.find?_empty]

theorem startMachine_hostsLead {ι : Type} :
    (startMachine maxDepth? : Machine ι Transcript).HostsLead Transcript.Adds := by
  intro name f hf
  rw [find?_startMachine_hosts] at hf
  split at hf
  · cases hf
    exact printing_leads _
  · split at hf
    · cases hf
      exact printing_leads _
    · cases hf

theorem startMachine_respects :
    (startMachine maxDepth? : Machine Nat Transcript).Respects (fun _ => []) [] := by
  have hbindings : ∀ name b,
      (startMachine maxDepth? : Machine Nat Transcript).environment.find? name = some b →
        b.Respects [] := fun _ _ h => nomatch h
  refine ⟨⟨hbindings, ?_⟩, rfl, fun _ h => (nomatch h), fun _ h => (nomatch h)⟩
  intro name f hf
  rw [find?_startMachine_hosts] at hf
  split at hf
  · cases hf
    exact ⟨[], fun _ h => (nomatch h), printing_honest _⟩
  · split at hf
    · cases hf
      exact ⟨[], fun _ h => (nomatch h), printing_honest _⟩
    · cases hf

theorem startMachine_erasesTo : (startMachine maxDepth? : Machine Nat Transcript).ErasesTo
    Transcript.ofProgram (startMachine maxDepth?) where
  bindings := rfl
  maxDepth := rfl
  hosts name := by
    rw [find?_startMachine_hosts, find?_startMachine_hosts]
    split
    · exact .some (printing_erasesTo fun v => congrArg (· ++ "\n") (plainText_erase v))
    · split
      · exact .some (printing_erasesTo plainText_erase)
      · exact .none
  host := rfl

/-- Machines that differ in labels and in what the command has said. -/
abbrev Twins (start start' : Machine Nat Transcript) (ℓ ℓ' : Labelling)
    (m m' : Machine Nat Transcript) : Prop :=
  Machine.Twins (fun _ => []) Transcript.ofProgram start start' ℓ ℓ' m m'

theorem startMachine_twins :
    Twins (startMachine maxDepth?) (startMachine maxDepth?) [] [] (startMachine maxDepth?)
      (startMachine maxDepth?) :=
  ⟨startMachine_respects, startMachine_respects, ⟨_, startMachine_erasesTo, startMachine_erasesTo⟩,
    .refl _ _⟩

/-- The machine after the command has said something. -/
def saying (text : String) (m : Machine Nat Transcript) : Machine Nat Transcript :=
  { m with world := { m.world with host := m.world.host.push ⟨.command, text⟩ } }

theorem twins_saying {start start' m m' : Machine Nat Transcript} {ℓ ℓ' : Labelling}
    (h : Twins start start' ℓ ℓ' m m') (text : String) :
    Twins start start' ℓ ℓ' (saying text m) m' := by
  obtain ⟨⟨henv, hsupply, -, hevents⟩, hright, ⟨n, hn, hn'⟩, hsteps⟩ := h
  refine ⟨⟨henv, hsupply, fun _ h => (nomatch h), hevents⟩, hright, ⟨n, ?_, hn'⟩, hsteps⟩
  exact ⟨hn.bindings, hn.maxDepth, hn.hosts,
    hn.host.trans (Transcript.ofProgram_push_command _ _).symm⟩

end SubstLisp.CommandLine
