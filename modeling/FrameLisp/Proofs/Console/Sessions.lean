import FrameLisp.Console
import FrameLisp.Proofs.Eval.Identities
import FrameLisp.Proofs.Eval.Runs
import FrameLisp.Proofs.Eval.Stages
import FrameLisp.Proofs.Snapshot.Reload

/-!
# Sessions of the console

A session begins with an empty frame in which the functions of the console are bound, and answers
lines. Whatever the lines, the files and the times on the clock are, the graph of frames stays
linked, its root exists, and no identity in use is handed out again: the functions of the console
touch no frame, and a text that does not describe a graph is refused.

If the console saves its graph and loads it again, then the root of the copy takes the place of the
old one. The functions of the console are not part of a saved graph, so they are bound again in the
new root, after everything else has been restored. Under their two names nothing that was saved is
found again, even if the names had been bound to something else. All other bindings come back.

Nothing is assumed about the files in general. They are a state of any kind, and reading and writing
may do anything to it and fail at any time. Only to get back what was saved, a text that was written
without a failure has to be found by the next reading.

## Main definitions

* `Files.KeepsWritten`, `Files.FailsCleanly` — what files may be expected to do
* `Console.answer` — the answer to a line
* `Session` — the states of a session
* `Console.Reloaded` — a session that has got its bindings back

## Main results

* `Console.session_cons` — a session answers line after line
* `Session.sound` — the graph of a session stays linked, and its identities are not handed out again
* `Session.reload_keeps_bindings` — what is saved comes back, but for two names
* `Session.reload_rebinds_print` — a binding that does not come back
-/

namespace FrameLisp

/-! ### The functions of the console -/

/-- A host whose functions leave the store as it is and give no frames. -/
theorem Host.modifiesNone_of_store {σ : Type} {host : Host σ}
    (hstore : ∀ ref args m, (machineAfter (host.call ref args m)).store = m.store)
    (hresult : ∀ ref args m v m', host.call ref args m = .ok v m' → v.frames = []) :
    host.ModifiesNone where
  kept ref args m i _ := by rw [hstore]
  older ref args m i hi j hj := by
    rw [hstore, Store.outer_of_le hi] at hj
    cases hj
  linked ref args m hs _ := by
    rw [hstore]
    exact hs
  result ref args m v m' _ _ hcall i hi := by
    rw [hresult ref args m v m' hcall] at hi
    cases hi

/-! ### Files -/

namespace Files

variable {W : Type}

/-- What is written under a name without a failure is found by the next reading. -/
def KeepsWritten (files : Files (StateM W)) (path : String) : Prop :=
  ∀ text w w', (files.write path text).run w = (.ok (), w') →
    ((files.read path).run w').1 = .ok text

/-- Whoever fails to write under a name changes nothing. -/
def FailsCleanly (files : Files (StateM W)) (path : String) : Prop :=
  ∀ text w w' e, (files.write path text).run w = (.error e, w') → w' = w

end Files

namespace Shelf

variable {shelf : Shelf} {name content : String}

theorem read_of_some (h : shelf.get? name = some content) :
    (files.read name).run shelf = pure (.ok content, shelf) := by
  simp [files, h]

theorem write_of_ne (h : name ≠ "") (content : String) :
    (files.write name content).run shelf = pure (.ok (), shelf.insert name content) := by
  change StateT.run (if name = "" then _ else _) shelf = _
  rw [if_neg h]
  rfl

theorem keepsWritten_of_ne (h : name ≠ "") : files.KeepsWritten name := by
  intro text shelf shelf' hwrite
  rw [write_of_ne h] at hwrite
  cases hwrite
  have hfile : (shelf.insert name text).get? name = some text := by
    rw [Bindings.get?_insert, if_pos rfl]
  exact congrArg Prod.fst (read_of_some hfile)

end Shelf

namespace Console

theorem call_host (ref : HostRef) (args : List Value) (m : Machine Desk) :
    (∃ v m', host.call ref args m = .ok v m' ∧ m'.store = m.store ∧ m.supply ≤ m'.supply ∧
      v.frames = [] ∧ v.Issued m'.supply) ∨
    ∃ halt m', host.call ref args m = .error halt m' ∧ m'.store = m.store ∧
      m.supply ≤ m'.supply := by
  rcases ref with _ | _ | ref
  · refine .inl ⟨_, _, rfl, rfl, Nat.le_succ _, rfl, fun p hp k hk => ?_⟩
    obtain rfl := List.mem_singleton.mp hp
    exact Option.some.inj hk ▸ Nat.lt_succ_self _
  · change (∃ v m', Stock.clock args m = .ok v m' ∧ _) ∨ ∃ halt m', Stock.clock args m = _ ∧ _
    rw [Stock.clock]
    cases (⟨"clock", args⟩ : Arguments).expectCount 0 with
    | ok =>
      refine .inl ⟨_, _, rfl, rfl, le_rfl, rfl, fun p hp k hk => ?_⟩
      obtain rfl := List.mem_singleton.mp hp
      cases hk
    | error e => exact .inr ⟨_, _, rfl, rfl, le_rfl⟩
  · exact .inr ⟨_, _, rfl, rfl, le_rfl⟩

/-- **The functions of the console touch no frame.** -/
theorem modifiesNone_host : host.ModifiesNone := by
  refine Host.modifiesNone_of_store (fun ref args m => ?_) fun ref args m v m' hcall => ?_
  · rcases call_host ref args m with ⟨v, m', hcall, hstore, -⟩ | ⟨halt, m', hcall, hstore, -⟩
    all_goals rw [hcall]; exact hstore
  · rcases call_host ref args m with ⟨w, m'', hok, -, -, hframes, -⟩ | ⟨halt, m'', herror, -⟩
    · rw [hok] at hcall
      cases hcall
      exact hframes
    · rw [herror] at hcall
      cases hcall

/-- **The functions of the console take identities from the supply.** -/
theorem issues_host : host.Issues := by
  intro ref args m hm _
  rcases call_host ref args m with
    ⟨v, m', hcall, hstore, hle, -, hv⟩ | ⟨halt, m', hcall, hstore, hle⟩
  · rw [hcall]
    exact ⟨hle, hm.congr hstore hle, hv⟩
  · rw [hcall]
    exact ⟨hle, hm.congr hstore hle⟩

/-- The store after the functions of the console have been bound in a frame. -/
def provided (s : Store) (root : FrameId) : Store :=
  (s.define root "print" (.external 0)).define root "clock" (.external 1)

section

variable {s : Store} {root : FrameId}

@[simp] theorem size_provided : (provided s root).size = s.size := by
  rw [provided, Store.size_define, Store.size_define]

@[simp] theorem outer_provided (i : FrameId) : (provided s root).outer i = s.outer i := by
  rw [provided, Store.outer_define, Store.outer_define]

theorem linked_provided (hs : s.Linked) : (provided s root).Linked := by
  refine (hs.define root "print" ?_).define root "clock" ?_
  all_goals exact fun i hi => absurd hi List.not_mem_nil

theorem issued_provided {n : ℕ} (hs : s.Issued n) : (provided s root).Issued n := by
  refine (hs.define root "print" fun p hp k hk => ?_).define root "clock" fun p hp k hk => ?_
  all_goals
    obtain rfl := List.mem_singleton.mp hp
    cases hk

theorem get?_provided_of_ne {i : FrameId} {name : String}
    (h : i = root → name ≠ "print" ∧ name ≠ "clock") :
    ((provided s root).bindings i).get? name = (s.bindings i).get? name := by
  rw [provided, Store.bindings_define, Store.bindings_define]
  by_cases hi : root = i
  · obtain ⟨hprint, hclock⟩ := h hi.symm
    split <;> split <;> simp [Bindings.get?_insert, hprint, hclock]
  · rw [if_neg fun h => hi h.1, if_neg fun h => hi h.1]

theorem get?_provided (hroot : root < s.size) :
    ((provided s root).bindings root).get? "print" = some (.external 0) ∧
      ((provided s root).bindings root).get? "clock" = some (.external 1) := by
  rw [provided, Store.bindings_define, Store.bindings_define, Store.size_define,
    if_pos ⟨rfl, hroot⟩, if_pos ⟨rfl, hroot⟩]
  simp [Bindings.get?_insert]

end

/-! ### Answers -/

section

variable {W : Type}

/-- What a line adds to the standard output and to the error output while the clock shows the given
times, and the session and the files afterwards. -/
def answer (files : Files (StateM W)) (clock : ℕ → Float) (c : Console) (w : W) (line : String) :
    ((String × String) × Console) × W :=
  (c.reply files clock (Command.ofLine line)).run w

variable {files : Files (StateM W)} {clock : ℕ → Float} {c c' : Console} {w w' : W}
  {line path text : String}

/-- A result with the files afterwards, in the form in which a sequence goes on with it. -/
theorem run_eq_pure {α : Type} {x : StateM W α} {a : α} (h : x.run w = (a, w')) :
    x.run w = pure (a, w') := h

theorem answer_of_respond {a : Option Answer}
    (h : ((c.setClock clock).respond files (Command.ofLine line)).run w = ((a, c'), w')) :
    c.answer files clock w line = (((c'.machine.desk.printed ++ (Answer.streams a).1,
      (Answer.streams a).2), c'.takePrinted.2), w') := by
  rw [answer, reply, StateT.run_bind, h]
  rfl

/-- A session answers line after line, until one ends it. -/
theorem session_cons (hline : Command.ofLine line ≠ .quit) (o : Output) (rest : List String) :
    (c.session files clock o (line :: rest)).run w =
      ((c.answer files clock w line).1.2.session files clock
        ⟨o.out ++ prompt ++ (c.answer files clock w line).1.1.1,
          o.err ++ (c.answer files clock w line).1.1.2⟩ rest).run
        (c.answer files clock w line).2 := by
  rw [session, answer]
  cases hcommand : Command.ofLine line with
  | quit => exact absurd hcommand hline
  | _ => rfl

theorem save_eq (c : Console) :
    c.save = (c.machine.store.save c.evaluator.root).mapError Halt.failed := by
  have hrun : c.evaluator.save c.machine =
      EvalM.ofExcept (c.machine.store.save c.evaluator.root) c.machine := rfl
  rw [save, run, hrun]
  cases c.machine.store.save c.evaluator.root <;> rfl

theorem respond_saveenv_of_ok (hsave : c.machine.store.save c.evaluator.root = .ok text)
    (hwrite : (files.write path text).run w = (.ok (), w')) :
    (c.respond files (.saveenv path)).run w =
      ((some (.output ("environment saved to " ++ path)), c), w') := by
  simp only [respond, save_eq, hsave, Except.mapError, StateT.run_bind, run_eq_pure hwrite,
    pure_bind]
  rfl

theorem answer_saveenv_of_ok (hline : Command.ofLine line = .saveenv path)
    (hsave : c.machine.store.save c.evaluator.root = .ok text)
    (hwrite : (files.write path text).run w = (.ok (), w')) (clock : ℕ → Float) :
    c.answer files clock w line =
      (((c.machine.desk.printed ++ ("environment saved to " ++ path ++ "\n"), ""),
        (c.setClock clock).takePrinted.2), w') :=
  answer_of_respond (hline ▸ respond_saveenv_of_ok (c := c.setClock clock) hsave hwrite)

/-- Saving writes a text without a failure, or it is refused. Then the files have not been touched,
if there was no text to write, or they are as the writing left them that failed. -/
theorem respond_saveenv (files : Files (StateM W)) (c : Console) (w : W) (path : String) :
    (∃ text w', c.machine.store.save c.evaluator.root = .ok text ∧
      (files.write path text).run w = (.ok (), w')) ∨
    ∃ problem w', (c.respond files (.saveenv path)).run w = ((some (.problem problem), c), w') ∧
      ((∃ e, c.machine.store.save c.evaluator.root = .error e ∧ w' = w) ∨
        ∃ text e, c.machine.store.save c.evaluator.root = .ok text ∧
          (files.write path text).run w = (.error e, w')) := by
  cases hsave : c.machine.store.save c.evaluator.root with
  | error e =>
    refine .inr ⟨(Halt.failed e).message, w, ?_, .inl ⟨e, rfl, rfl⟩⟩
    simp only [respond, save_eq, hsave, Except.mapError]
    rfl
  | ok text =>
    rcases hwrite : (files.write path text).run w with ⟨e | ⟨⟩, w'⟩
    · refine .inr ⟨"writing " ++ path ++ ": " ++ e, w', ?_, .inr ⟨text, e, rfl, hwrite⟩⟩
      simp only [respond, save_eq, hsave, Except.mapError, StateT.run_bind, run_eq_pure hwrite,
        pure_bind]
      rfl
    · exact .inl ⟨text, w', rfl, hwrite⟩

theorem respond_loadenv_of_ok (hread : ((files.read path).run w).1 = .ok text)
    (hrestore : c.restore text = .ok c') :
    (c.respond files (.loadenv path)).run w =
      ((some (.output ("environment loaded from " ++ path)), c'), ((files.read path).run w).2) := by
  rcases hfile : (files.read path).run w with ⟨outcome, w'⟩
  rw [hfile] at hread
  obtain rfl : outcome = .ok text := hread
  simp only [respond, StateT.run_bind, run_eq_pure hfile, pure_bind, hrestore]
  rfl

/-- Loading reads a file, and gives a session and a message, or it is refused and leaves the session
as it is. The files are touched by the reading only. -/
theorem respond_loadenv (files : Files (StateM W)) (c : Console) (w : W) (path : String) :
    (∃ text c', ((files.read path).run w).1 = .ok text ∧ c.restore text = .ok c') ∨
    ∃ problem, (c.respond files (.loadenv path)).run w =
      ((some (.problem problem), c), ((files.read path).run w).2) := by
  rcases hfile : (files.read path).run w with ⟨e | text, w'⟩
  · refine .inr ⟨"reading " ++ path ++ ": " ++ e, ?_⟩
    simp only [respond, StateT.run_bind, run_eq_pure hfile, pure_bind]
    rfl
  · cases hrestore : c.restore text with
    | ok c' => exact .inl ⟨text, c', rfl, hrestore⟩
    | error halt =>
      refine .inr ⟨"loading " ++ path ++ ": " ++ halt.message, ?_⟩
      simp only [respond, StateT.run_bind, run_eq_pure hfile, pure_bind, hrestore]
      rfl

theorem restore_of_ok {e : Evaluator} {m : Machine Desk}
    (h : c.evaluator.load text c.machine = .ok e m) :
    c.restore text = .ok ⟨{ m with store := provided m.store e.root }, e⟩ := by
  have hreload : (do
      let e ← c.evaluator.load text
      provide e
      pure e : EvalM Desk Evaluator) c.machine = _ := EvalM.bind_of_ok h
  rw [restore, run, hreload]
  rfl

theorem restore_of_error {halt : Halt} {m : Machine Desk}
    (h : c.evaluator.load text c.machine = .error halt m) : c.restore text = .error halt := by
  have hreload : (do
      let e ← c.evaluator.load text
      provide e
      pure e : EvalM Desk Evaluator) c.machine = _ := EvalM.bind_of_error h
  rw [restore, run, hreload]

end

/-! ### The graph of a session -/

/-- The graph is linked and its root exists, and identities in use are not handed out again. -/
structure Sound (c : Console) : Prop where
  linked : c.machine.store.Linked
  root : c.evaluator.root < c.machine.store.size
  issued : c.machine.HasIssued

variable {c c' : Console} {text : String}

theorem sound_start : start.Sound := by
  have hempty : Store.Linked .empty :=
    Store.linked_iff.mpr fun i hi => absurd hi (Nat.not_lt_zero i)
  exact ⟨linked_provided hempty.push_empty, by decide,
    issued_provided ((Store.issued_empty 0).push_empty none)⟩

theorem Sound.setClock (h : c.Sound) (clock : ℕ → Float) : (c.setClock clock).Sound :=
  ⟨h.linked, h.root, h.issued⟩

theorem Sound.takePrinted (h : c.Sound) : c.takePrinted.2.Sound :=
  ⟨h.linked, h.root, h.issued⟩

theorem Sound.evaluate (h : c.Sound) (source : String) : (c.evaluate source).2.Sound := by
  obtain ⟨hlinked, hroot⟩ := (Discipline.lawful_linked modifiesNone_host
    (c.evaluator.root + 1)).readEvalPrint ⟨h.linked, h.root⟩ trivial h.root
    fun _ _ p _ => Vocabulary.admitsDatum_everything _ p
  exact ⟨hlinked, hroot, h.issued.readEvalPrint issues_host _ _ source⟩

theorem Sound.run_execute (h : c.Sound) (source : String) :
    (c.run (execute host defaultDepth c.evaluator.root source)).2.Sound := by
  have hafter : (Discipline.linked (c.evaluator.root + 1)).machine
      (machineAfter (execute host defaultDepth c.evaluator.root source c.machine)) :=
    ((Discipline.lawful_linked modifiesNone_host _).execute ⟨h.linked, h.root⟩ trivial h.root
      fun _ _ p _ => Vocabulary.admitsDatum_everything _ p).machineAfter.2
  have hissued := (h.issued.execute issues_host defaultDepth c.evaluator.root source).machineAfter.2
  rw [run]
  cases hexecute : execute host defaultDepth c.evaluator.root source c.machine
  all_goals
    rw [hexecute] at hafter hissued
    exact ⟨hafter.1, hafter.2, hissued⟩

theorem Sound.restore (h : c.Sound) (hrestore : c.restore text = .ok c') : c'.Sound := by
  cases htext : Snapshot.ofText text with
  | error fault =>
    rw [restore_of_error (Evaluator.load_of_fault htext c.evaluator c.machine)] at hrestore
    cases hrestore
  | ok snapshot =>
    rw [restore_of_ok (Evaluator.load_of_load (EvalM.load_of_ofText_ok htext) c.evaluator)]
      at hrestore
    cases hrestore
    have hlinked := Store.linked_restore (Snapshot.ofText_eq_ok_iff.mp htext).2 h.linked.push_empty
      (Store.lt_size_push ..) c.machine.supply
    have hissued := (h.issued.load text).2
    rw [EvalM.load_of_ofText_ok htext] at hissued
    refine ⟨linked_provided hlinked, ?_, issued_provided hissued⟩
    rw [size_provided]
    exact (Store.lt_size_push ..).trans_le (Store.size_le_restore ..)

section

variable {W : Type}

/-- **Every command leaves a sound session,** whatever the files are. -/
theorem Sound.respond (h : c.Sound) (files : Files (StateM W)) (w : W) (command : Command) :
    ((c.respond files command).run w).1.2.Sound := by
  cases command with
  | nothing => exact h
  | quit => exact h
  | load path =>
    rcases hfile : (files.read path).run w with ⟨e | source, w'⟩
    · simp only [Console.respond, StateT.run_bind, run_eq_pure hfile, pure_bind]
      exact h
    · simp only [Console.respond, StateT.run_bind, run_eq_pure hfile, pure_bind]
      exact h.evaluate source
  | printenv =>
    rw [Console.respond]
    cases c.save <;> exact h
  | saveenv path =>
    rcases respond_saveenv files c w path with ⟨text, w', hsave, hwrite⟩ | ⟨problem, w', heq, -⟩
    · rw [respond_saveenv_of_ok hsave hwrite]
      exact h
    · rw [heq]
      exact h
  | loadenv path =>
    rcases respond_loadenv files c w path with ⟨text, c', hread, hrestore⟩ | ⟨problem, heq⟩
    · rw [respond_loadenv_of_ok hread hrestore]
      exact h.restore hrestore
    · rw [heq]
      exact h
  | json source =>
    have hrun := h.run_execute source
    rw [Console.respond]
    cases heq : c.run (execute host defaultDepth c.evaluator.root source) with
    | mk outcome c' =>
      rw [heq] at hrun
      cases outcome <;> exact hrun
  | form source => exact h.evaluate source

theorem Sound.answer (h : c.Sound) (files : Files (StateM W)) (clock : ℕ → Float) (w : W)
    (line : String) : (c.answer files clock w line).1.2.Sound := by
  have hrespond := (h.setClock clock).respond files w (Command.ofLine line)
  rcases hr : ((c.setClock clock).respond files (Command.ofLine line)).run w with ⟨⟨a, c'⟩, w'⟩
  rw [hr] at hrespond
  rw [answer_of_respond hr]
  exact hrespond.takePrinted

end

end Console

/-- The states of a session. Others may use the files between two lines, so each line may find them
in any state; and while it is answered, the clock may show any times. -/
inductive Session {W : Type} (files : Files (StateM W)) : Console → Prop where
  | start : Session files .start
  | next {c : Console} (h : Session files c) (clock : ℕ → Float) (w : W) (line : String) :
    Session files (c.answer files clock w line).1.2

/-- **The graph of a session stays linked,** its root exists, and no identity in use is handed out
again. -/
theorem Session.sound {W : Type} {files : Files (StateM W)} {c : Console} (h : Session files c) :
    c.Sound := by
  induction h with
  | start => exact Console.sound_start
  | next _ clock w line ih => exact ih.answer files clock w line

/-! ### Saving and loading -/

/-- Under a correspondence of frames, a session has got its bindings back: the two roots correspond,
every frame of the graph has a partner, and partners have corresponding parents and bind the same
names to corresponding values. This leaves out bindings to external functions, and in the root the
names of the functions that the console offers, which are bound to these functions. -/
structure Console.Reloaded (F : FrameId → FrameId → Prop) (c c' : Console) : Prop where
  unique : Relator.BiUnique F
  root : F c.evaluator.root c'.evaluator.root
  reachable : ∀ i ∈ c.machine.store.reachable c.evaluator.root, ∃ j, F i j
  outer : ∀ {i j}, F i j → Option.Rel F (c.machine.store.outer i) (c'.machine.store.outer j)
  bindings : ∀ {i j}, F i j → ∀ name,
    (i = c.evaluator.root → name ≠ "print" ∧ name ≠ "clock") →
    Option.Rel (Value.Related (.ofFrames F))
      ((c.machine.store.withoutExternals.bindings i).get? name)
      ((c'.machine.store.bindings j).get? name)
  print : (c'.machine.store.bindings c'.evaluator.root).get? "print" = some (.external 0)
  clock : (c'.machine.store.bindings c'.evaluator.root).get? "clock" = some (.external 1)

theorem EvalM.desk_of_load {σ : Type} {text : String} {root : FrameId} {m m' : Machine σ}
    (h : EvalM.load text m = .ok root m') : m'.desk = m.desk := by
  cases htext : Snapshot.ofText text with
  | error fault =>
    rw [load_of_ofText_error htext] at h
    cases h
  | ok snapshot =>
    rw [load_of_ofText_ok htext] at h
    cases h
    rfl

namespace Console

variable {c c₁ c₂ c' : Console} {path text : String}

/-- Only frames and roots matter to whether a session has got its bindings back. -/
theorem Reloaded.congr {F : FrameId → FrameId → Prop} (h : c.Reloaded F c')
    (hstore : c₁.machine.store = c.machine.store) (hroot : c₁.evaluator.root = c.evaluator.root)
    (hstore' : c₂.machine.store = c'.machine.store)
    (hroot' : c₂.evaluator.root = c'.evaluator.root) : c₁.Reloaded F c₂ := by
  refine ⟨h.unique, ?_, ?_, ?_, ?_, ?_, ?_⟩
  all_goals simp only [hstore, hroot, hstore', hroot']
  exacts [h.root, h.reachable, h.outer, h.bindings, h.print, h.clock]

theorem Sound.exists_reloaded (h : c.Sound)
    (hsize : (c.machine.store.reachable c.evaluator.root).length ≤ 2 ^ 53)
    (hvalues : c.machine.store.Restorable c.evaluator.root)
    (hsave : c.machine.store.save c.evaluator.root = .ok text) :
    ∃ c' F, c.restore text = .ok c' ∧ c'.machine.desk = c.machine.desk ∧ c.Reloaded F c' := by
  obtain ⟨root', m', F, hload, hF, hsimilar⟩ :=
    Store.exists_load_of_save h.linked h.root hsize hvalues hsave c.machine
  have hdesk := EvalM.desk_of_load hload
  refine ⟨_, F, restore_of_ok (Evaluator.load_of_load hload c.evaluator), hdesk, ?_⟩
  obtain ⟨hprint, hclock⟩ := get?_provided (hsimilar.range hF).2
  refine ⟨hsimilar.unique, hF, ?_, ?_, ?_, hprint, hclock⟩
  · intro i hi
    have hreachable := hsimilar.reachable hF
    rw [Store.reachable_withoutExternals] at hreachable
    obtain ⟨j, -, hij⟩ := Store.exists_getElem?_of_forall₂ hreachable (List.getElem?_idxOf hi)
    exact ⟨j, hij⟩
  · intro i j hij
    have houter := hsimilar.outer hij
    rw [Store.outer_withoutExternals] at houter
    change Option.Rel F _ ((provided m'.store root').outer j)
    rwa [outer_provided]
  · intro i j hij name hname
    change Option.Rel _ _ (((provided m'.store root').bindings j).get? name)
    rw [get?_provided_of_ne]
    · exact (hsimilar.bindings hij).get? name
    · rintro rfl
      exact hname (hsimilar.unique.1 hij hF)

/-- The answer to a line that loads what was saved, from files in which it is found. -/
theorem Sound.exists_answer (h : c.Sound) (hprinted : c.machine.desk.printed = "")
    (hsize : (c.machine.store.reachable c.evaluator.root).length ≤ 2 ^ 53)
    (hvalues : c.machine.store.Restorable c.evaluator.root)
    (hsave : c.machine.store.save c.evaluator.root = .ok text) {W : Type}
    {files : Files (StateM W)} {w : W} (hread : ((files.read path).run w).1 = .ok text)
    {loading : String} (hloading : Command.ofLine loading = .loadenv path) (clock : ℕ → Float) :
    ∃ c' F, c.answer files clock w loading =
      ((("environment loaded from " ++ path ++ "\n", ""), c'), ((files.read path).run w).2) ∧
      c.Reloaded F c' := by
  obtain ⟨c', F, hrestore, hdesk, hF⟩ :=
    (h.setClock clock).exists_reloaded hsize hvalues hsave
  have hload := respond_loadenv_of_ok hread hrestore
  rw [← hloading] at hload
  have hempty : c'.machine.desk.printed = "" := by
    rw [hdesk]
    exact hprinted
  refine ⟨c'.takePrinted.2, F, ?_, ?_⟩
  · rw [answer_of_respond hload, hempty, String.empty_append]
    rfl
  · exact hF.congr rfl rfl rfl rfl

end Console

theorem Answer.streams_problem_ne (problem : String) :
    (Answer.streams (some (.problem problem))).2 ≠ "" := by
  simp [Answer.streams]

/-- **What is saved comes back, but for two names.** In any state of a session, let a line save the
graph and the next line load it from the same file. Suppose that files keep what is written under
that name, and that the values that are bound can be given back. If the first line succeeds, then so
does the second. It touches the files by one reading only, and the session has its bindings back;
only `print` and `clock` are bound to the functions of the console in the new root, whatever they
were bound to before.

A line that fails to save or to load leaves the session as it is, but for the clock and the printed
text that is taken. If there is no text to save, the files are not touched; otherwise they are as
the writing left them that failed, and unchanged if a failure changes nothing. A line that fails to
load touches them by one reading only. -/
theorem Session.reload_keeps_bindings {W : Type} {files : Files (StateM W)} {c : Console}
    (h : Session files c) {path saving loading : String}
    (hsaving : Command.ofLine saving = .saveenv path)
    (hloading : Command.ofLine loading = .loadenv path) (clock : ℕ → Float) (w : W) :
    (files.KeepsWritten path → c.machine.store.Restorable c.evaluator.root →
      (c.machine.store.reachable c.evaluator.root).length ≤ 2 ^ 53 →
      ∀ out c₁ w₁, c.answer files clock w saving = (((out, ""), c₁), w₁) →
        ∀ clock', ∃ c₂ F, c₁.answer files clock' w₁ loading =
          ((("environment loaded from " ++ path ++ "\n", ""), c₂), ((files.read path).run w₁).2) ∧
          c.Reloaded F c₂) ∧
    (∀ out err c₁ w₁, c.answer files clock w saving = (((out, err), c₁), w₁) → err ≠ "" →
      c₁ = (c.setClock clock).takePrinted.2 ∧
      ((∃ e, c.machine.store.save c.evaluator.root = .error e ∧ w₁ = w) ∨
        ∃ text e, c.machine.store.save c.evaluator.root = .ok text ∧
          (files.write path text).run w = (.error e, w₁)) ∧
      (files.FailsCleanly path → w₁ = w)) ∧
    ∀ out err c₁ w₁, c.answer files clock w loading = (((out, err), c₁), w₁) → err ≠ "" →
      c₁ = (c.setClock clock).takePrinted.2 ∧ w₁ = ((files.read path).run w).2 := by
  refine ⟨fun hfiles hvalues hsize out c₁ w₁ hanswer clock' => ?_,
    fun out err c₁ w₁ hanswer herr => ?_, fun out err c₁ w₁ hanswer herr => ?_⟩
  · rcases (c.setClock clock).respond_saveenv files w path with
      ⟨text, w', hsave, hwrite⟩ | ⟨problem, w', heq, -⟩
    · have hrespond := Console.respond_saveenv_of_ok hsave hwrite
      rw [Console.answer_of_respond (hsaving ▸ hrespond)] at hanswer
      cases hanswer
      have hsound : (c.setClock clock).takePrinted.2.Sound := (h.sound.setClock clock).takePrinted
      obtain ⟨c₂, F, hloaded, hF⟩ := hsound.exists_answer rfl hsize hvalues hsave
        (hfiles text w _ hwrite) hloading clock'
      exact ⟨c₂, F, hloaded, hF.congr rfl rfl rfl rfl⟩
    · rw [Console.answer_of_respond (hsaving ▸ heq)] at hanswer
      exact absurd (congrArg (fun r => r.1.1.2) hanswer) (Answer.streams_problem_ne problem)
  · rcases (c.setClock clock).respond_saveenv files w path with
      ⟨text, w', hsave, hwrite⟩ | ⟨problem, w', heq, htouched⟩
    · have hrespond := Console.respond_saveenv_of_ok hsave hwrite
      rw [Console.answer_of_respond (hsaving ▸ hrespond)] at hanswer
      cases hanswer
      exact absurd rfl herr
    · rw [Console.answer_of_respond (hsaving ▸ heq)] at hanswer
      cases hanswer
      refine ⟨rfl, htouched, fun hclean => ?_⟩
      rcases htouched with ⟨e, -, hw⟩ | ⟨text, e, -, hwrite⟩
      · exact hw
      · exact hclean text w _ e hwrite
  · rcases (c.setClock clock).respond_loadenv files w path with
      ⟨text, c', hread, hrestore⟩ | ⟨problem, heq⟩
    · rw [Console.answer_of_respond (hloading ▸ Console.respond_loadenv_of_ok hread hrestore)]
        at hanswer
      cases hanswer
      exact absurd rfl herr
    · rw [Console.answer_of_respond (hloading ▸ heq)] at hanswer
      cases hanswer
      exact ⟨rfl, rfl⟩

/-! ### Two sessions -/

/-- A line with a form that gives a value. -/
theorem Session.form {W : Type} {files : Files (StateM W)} {c : Console} (h : Session files c)
    {clock : ℕ → Float} (w : W) {line source : String}
    (hline : Command.ofLine line = .form source) {d : Datum}
    (hread : (Reading.ofText source).toExcept = .ok d) {v : Value} {m : Machine Desk}
    (hexecute : execute Console.host defaultDepth c.evaluator.root source
      (c.setClock clock).machine = .ok v m) :
    Session files (Console.takePrinted ⟨m, c.evaluator⟩).2 := by
  have hrespond : ((c.setClock clock).respond files (Command.ofLine line)).run w =
      ((some (.output ("parsed: " ++ d.text ++ "
result: " ++ v.text)), ⟨m, c.evaluator⟩),
        w) := by
    have hroot : (c.setClock clock).evaluator.root = c.evaluator.root := rfl
    rw [hline, Console.respond, Console.evaluate, readEvalPrint, hread, hroot, hexecute]
    rfl
  have hnext := h.next clock w line
  rw [Console.answer_of_respond hrespond] at hnext
  exact hnext

/-- With files in memory and a clock that shows seven, the first line of a session defines a
function and the second one keeps the time. Both come back. -/
theorem Session.reload_keeps_function :
    ∃ c : Console, Session Shelf.files c ∧ Command.ofLine "saveenv f" = .saveenv "f" ∧
      Command.ofLine "loadenv f" = .loadenv "f" ∧ Shelf.files.KeepsWritten "f" ∧
      (c.machine.store.bindings c.evaluator.root).get? "keep" =
        some (.closure 6 0 ["x"] (.symbol 5 "x")) ∧
      (c.machine.store.bindings c.evaluator.root).get? "now" = some (.number 7) ∧
      c.machine.store.Restorable c.evaluator.root ∧
      (c.machine.store.reachable c.evaluator.root).length ≤ 2 ^ 53 ∧
      ∃ out c₁ shelf₁, c.answer Shelf.files (fun _ => 8) ∅ "saveenv f" =
          (((out, ""), c₁), shelf₁) ∧
        ∃ c₂ F, c₁.answer Shelf.files (fun _ => 9) shelf₁ "loadenv f" =
          ((("environment loaded from " ++ "f" ++ "
", ""), c₂),
            ((Shelf.files.read "f").run shelf₁).2) ∧ c.Reloaded F c₂ := by
  have hread : (Reading.ofText "(define keep (lambda (x) x))").toExcept =
      .ok (.list [.atom (.form .define), .symbol "keep",
        .list [.atom (.form .lambda), .list [.symbol "x"], .symbol "x"]]) := by
    have hreadable : Datum.Readable (.list [.atom (.form .define), .symbol "keep",
        .list [.atom (.form .lambda), .list [.symbol "x"], .symbol "x"]]) := by decide
    exact hreadable.toExcept_text
  have hread' : (Reading.ofText "(define now (clock))").toExcept =
      .ok (.list [.atom (.form .define), .symbol "now", .list [.symbol "clock"]]) := by
    have hreadable : Datum.Readable
        (.list [.atom (.form .define), .symbol "now", .list [.symbol "clock"]]) := by decide
    exact hreadable.toExcept_text
  let s₁ : Store :=
    Console.start.machine.store.define 0 "keep" (.closure 6 0 ["x"] (.symbol 5 "x"))
  let s : Store := s₁.define 0 "now" (.number 7)
  let c₁ : Console := ⟨⟨s₁, 7, ⟨#[], "", fun _ => 7, 0⟩⟩, ⟨0, false⟩⟩
  let c : Console := ⟨⟨s, 11, ⟨#[], "", fun _ => 7, 1⟩⟩, ⟨0, false⟩⟩
  have hexecute : execute Console.host defaultDepth 0 "(define keep (lambda (x) x))"
      (Console.start.setClock fun _ => 7).machine = .ok (.bool true) c₁.machine := by
    rw [execute, hread]
    rfl
  have hexecute' : execute Console.host defaultDepth 0 "(define now (clock))"
      (c₁.setClock fun _ => 7).machine = .ok (.bool true) c.machine := by
    rw [execute, hread']
    rfl
  have hline : Command.ofLine "(define keep (lambda (x) x))" =
      .form "(define keep (lambda (x) x))" := by decide +kernel
  have hline' : Command.ofLine "(define now (clock))" = .form "(define now (clock))" := by
    decide +kernel
  have hsession : Session Shelf.files c :=
    (Session.start.form ∅ hline hread hexecute).form ∅ hline' hread' hexecute'
  have hreach : s.reachable 0 = [0] := Store.reachable_of_size_eq_one rfl
  have hvalues : s.Restorable 0 := by
    have hx : Datum.Readable (.symbol "x") := by decide
    have hnow : Datum.Readable (.number 7) := by decide
    rw [Store.Restorable, hreach]
    exact List.forall_mem_singleton.mpr (List.forall_mem_cons.mpr ⟨trivial,
      List.forall_mem_cons.mpr ⟨⟨by decide, hx⟩, List.forall_mem_cons.mpr ⟨⟨by decide, hnow⟩,
        List.forall_mem_singleton.mpr trivial⟩⟩⟩)
  have hsize : (s.reachable 0).length ≤ 2 ^ 53 := by
    rw [hreach]
    decide
  have hsave : s.save 0 = .ok (s.capture 0).text := Store.save_of_reachable hreach (by decide)
  have hsaving : Command.ofLine "saveenv f" = .saveenv "f" := by decide +kernel
  have hloading : Command.ofLine "loadenv f" = .loadenv "f" := by decide +kernel
  have hfiles : Shelf.files.KeepsWritten "f" := Shelf.keepsWritten_of_ne (by decide)
  have hwrite : (Shelf.files.write "f" (s.capture 0).text).run ∅ =
      (.ok (), (∅ : Shelf).insert "f" (s.capture 0).text) := Shelf.write_of_ne (by decide) _
  have hanswer := Console.answer_saveenv_of_ok (c := c) hsaving hsave hwrite fun _ => 8
  exact ⟨c, hsession, hsaving, hloading, hfiles, rfl, rfl, hvalues, hsize, _, _, _, hanswer,
    (hsession.reload_keeps_bindings hsaving hloading _ _).1 hfiles hvalues hsize _ _ _ hanswer _⟩

/-- **A binding that does not come back.** The first line of a session binds `print` to a truth
value. The graph is saved and loaded again, and then `print` is a function of the console. -/
theorem Session.reload_rebinds_print :
    ∃ c c₁ c₂ : Console, ∃ shelf₁ out out', Session Shelf.files c ∧
      c.machine.store.Restorable c.evaluator.root ∧
      (c.machine.store.bindings c.evaluator.root).get? "print" = some (.bool true) ∧
      c.answer Shelf.files (fun _ => 1) ∅ "saveenv f" = (((out, ""), c₁), shelf₁) ∧
      c₁.answer Shelf.files (fun _ => 2) shelf₁ "loadenv f" = (((out', ""), c₂), shelf₁) ∧
      (c₂.machine.store.bindings c₂.evaluator.root).get? "print" = some (.external 0) := by
  have hread : (Reading.ofText "(define print #t)").toExcept =
      .ok (.list [.atom (.form .define), .symbol "print", .bool true]) := by
    have hreadable : Datum.Readable
        (.list [.atom (.form .define), .symbol "print", .bool true]) := by decide
    exact hreadable.toExcept_text
  let s : Store := Console.start.machine.store.define 0 "print" (.bool true)
  let c : Console := ⟨⟨s, 2, .empty⟩, ⟨0, false⟩⟩
  have hexecute : execute Console.host defaultDepth 0 "(define print #t)"
      (Console.start.setClock fun _ => 0).machine = .ok (.bool true) c.machine := by
    rw [execute, hread]
    rfl
  have hline : Command.ofLine "(define print #t)" = .form "(define print #t)" := by decide +kernel
  have hsession : Session Shelf.files c := Session.start.form ∅ hline hread hexecute
  have hreach : s.reachable 0 = [0] := Store.reachable_of_size_eq_one rfl
  have hvalues : s.Restorable 0 := by
    rw [Store.Restorable, hreach]
    exact List.forall_mem_singleton.mpr (List.forall_mem_cons.mpr ⟨trivial,
      List.forall_mem_singleton.mpr ⟨by decide, .bool true⟩⟩)
  have hsize : (s.reachable 0).length ≤ 2 ^ 53 := by
    rw [hreach]
    decide
  have hsave : s.save 0 = .ok (s.capture 0).text := Store.save_of_reachable hreach (by decide)
  have hfile : ((∅ : Shelf).insert "f" (s.capture 0).text).get? "f" = some (s.capture 0).text := by
    rw [Bindings.get?_insert, if_pos rfl]
  have hfound := Shelf.read_of_some hfile
  have hsaving : Command.ofLine "saveenv f" = .saveenv "f" := by decide +kernel
  have hloading : Command.ofLine "loadenv f" = .loadenv "f" := by decide +kernel
  have hwrite : (Shelf.files.write "f" (s.capture 0).text).run ∅ =
      (.ok (), (∅ : Shelf).insert "f" (s.capture 0).text) := Shelf.write_of_ne (by decide) _
  have hsaved := Console.answer_saveenv_of_ok (c := c) hsaving hsave hwrite fun _ => 1
  have hsound : (c.setClock fun _ => 1).takePrinted.2.Sound :=
    (hsession.sound.setClock fun _ => 1).takePrinted
  obtain ⟨c₂, F, hloaded, hF⟩ := hsound.exists_answer rfl hsize hvalues hsave
    (congrArg Prod.fst hfound) hloading fun _ => 2
  rw [hfound] at hloaded
  exact ⟨c, _, c₂, _, _, _, hsession, hvalues, rfl, hsaved, hloaded, hF.print⟩

end FrameLisp
