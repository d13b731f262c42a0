import RosAudit.Proofs.CMake.BlockMachine

/-!
# Which statements open a block

A statement opens a block if its command is one of the words in `Statement.blockEnds`, in any case,
and then the block goes on to a statement that ends a block of this word. `Blocked` says so of a
tree of statements.

The reader looks for the words at the front of a command, and only then compares the whole command
with them. A command that begins like one of the words without being one, such as `if_debug`, is
taken neither as a plain statement nor as one that opens a block. It is not `Understood`, and a
script with it is refused wherever it stands. `ofScript_blocks` says what every script is read as.
-/

namespace RosAudit.CMake

open RosAudit.Text List

open Statement in
/-- A script is refused if a command is not understood. Otherwise it is read as the tree that is
`Blocked` and lists its statements, and refused if there is none. -/
theorem ofScript_blocks (s : String) {ps : List (List String × Line)}
    (hs : (ps.map Prod.fst).flatten = lines s) (hps : ∀ p ∈ ps, LineGroup p.1 p.2)
    (hascii : Ascii ps) :
    (∃ p ∈ ps, ¬ Understood p.2.command) ∧ ofScript s = .error .noKey ∨
    (∀ p ∈ ps, Understood p.2.command) ∧
      (∀ xs, ofScript s = .ok xs ↔ Blocked [] false xs ∧ listingAll xs = ps.map Prod.snd) ∧
      (ofScript s = .error .unclosedBlock ∨ ∃ xs, ofScript s = .ok xs) := by
  rcases ofScript_of_groups hs hps hascii with hmis | ⟨hu, hread, hres⟩
  · exact .inl hmis
  have hback {ys : List Statement} (hys : Blocked [] false ys)
      (hlist : listingAll ys = ps.map Prod.snd) : ofScript s = .ok ys := by
    rw [hread, ← hlist, BlockMachine.read_listingAll hys]
  refine .inr ⟨hu, ?_⟩
  rcases hres with herr | ⟨ys, hys, htree⟩
  · refine ⟨fun xs => ⟨fun h => ?_, fun h => hback h.1 h.2⟩, .inl herr⟩
    cases herr.symm.trans h
  · refine ⟨fun xs => ⟨fun h => ?_, fun h => hback h.1 h.2⟩, .inr ⟨ys, hys⟩⟩
    cases hys.symm.trans h
    exact htree

/-- A block whose first statement goes over two lines. -/
theorem ofScript_blocks_sample :
    Statement.ofScript "IF(a\n b)\nset(y)\nendif()" =
      .ok [.mk ⟨"IF", some "a b", none⟩ (some [.mk ⟨"set", some "y", none⟩ none]),
        .mk ⟨"endif", none, none⟩ none] := by
  have hif : LineGroup ["IF(a", " b)"] ⟨"IF", some "a b", none⟩ :=
    ⟨by simp, by decide +kernel, (unfinished_singleton "IF(a").concat
      (f := .incompleteStatement "IF(a") (by decide +kernel) " b)"⟩
  have hset : LineGroup ["set(y)"] ⟨"set", some "y", none⟩ :=
    ⟨by simp, by decide +kernel, unfinished_singleton _⟩
  have hend : LineGroup ["endif()"] ⟨"endif", none, none⟩ :=
    ⟨by simp, by decide +kernel, unfinished_singleton _⟩
  have hps : ∀ p ∈ [(["IF(a", " b)"], ⟨"IF", some "a b", none⟩),
      (["set(y)"], ⟨"set", some "y", none⟩), (["endif()"], (⟨"endif", none, none⟩ : Line))],
      LineGroup p.1 p.2 ∧ Understood p.2.command := by
    simp only [forall_mem_cons]
    exact ⟨⟨hif, by decide +kernel⟩, ⟨hset, by decide +kernel⟩, ⟨hend, by decide +kernel⟩,
      forall_mem_nil _⟩
  rcases ofScript_blocks "IF(a\n b)\nset(y)\nendif()" (by decide +kernel)
      (fun p hp => (hps p hp).1) (fun p hp => (hps p hp).2.1) with ⟨⟨p, hp, hmis⟩, -⟩ | ⟨-, hiff, -⟩
  · exact absurd (hps p hp).2 hmis
  · exact (hiff _).mpr ⟨.opens rfl (by simp) (.plain rfl (by decide) (.nil _)) (by decide)
      (.plain rfl (by simp) (.nil _)), rfl⟩

/-- `if_debug` opens no block, and is refused. -/
theorem ofScript_if_debug :
    Line.parse "if_debug(x)" = .ok ⟨"if_debug", some "x", none⟩ ∧ closers "if_debug" = none ∧
      Statement.ofScript "if_debug(x)" = .error .noKey := by
  have hparse : Line.parse "if_debug(x)" = .ok ⟨"if_debug", some "x", none⟩ := by decide +kernel
  have hu : ¬ Understood "if_debug" := by decide +kernel
  have hgroup : LineGroup ["if_debug(x)"] ⟨"if_debug", some "x", none⟩ :=
    ⟨by simp, hparse, unfinished_singleton _⟩
  refine ⟨hparse, by decide +kernel, ?_⟩
  have hps : ∀ p ∈ [(["if_debug(x)"], (⟨"if_debug", some "x", none⟩ : Line))],
      LineGroup p.1 p.2 ∧ ∀ c ∈ p.2.command.toList, c.toNat < 128 :=
    forall_mem_singleton.mpr ⟨hgroup, by simp⟩
  rcases ofScript_of_groups (s := "if_debug(x)") (by decide +kernel) (fun p hp => (hps p hp).1)
      (fun p hp => (hps p hp).2) with h | ⟨h, -⟩
  · exact h.2
  · exact absurd (h _ mem_cons_self) hu

end RosAudit.CMake
