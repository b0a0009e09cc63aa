import Mathlib.Data.List.Nodup
import Shellward.Proofs.Script.Renaming
import Shellward.Proofs.Script.Temporaries
import Shellward.Proofs.Script.Translating

/-!
# Sessions

A session flattens and expresses scripts in any order, and some of them may be
inexpressible.  Each answer is that of a session that has just started, but for the numbers
of the temporaries, which go on from script to script.

Main results:

- Theorem `Script.perm_temporaries`: the temporaries of a flattened script are those with the
  numbers that it counted.
- Theorem `Session.exists_after`: after any requests a session is ready again, and the
  temporaries of its answers are those that it counted.
- Theorem `Session.run_answers_as_started`: every answer is that of a session that has just
  started, with its temporaries renumbered, and no temporary is introduced twice.
-/

namespace Shellward

open Flatten

variable {π : Type}

/-! ### The temporaries of a script -/

/-- The temporaries with numbers above `n` and up to `m`. -/
def temporariesBetween (n m : Nat) : List String :=
  (List.range' (n + 1) (m - n)).map temporary

/-- The temporaries between two numbers are those with a number between them. -/
theorem mem_temporariesBetween {n m k : Nat} :
    temporary k ∈ temporariesBetween n m ↔ n < k ∧ k ≤ m := by
  rw [temporariesBetween, List.mem_map]
  constructor
  · rintro ⟨j, hj, heq⟩
    rw [List.mem_range'_1] at hj
    have hjk := temporary_injective heq
    omega
  · intro hk
    exact ⟨k, List.mem_range'_1.mpr (by omega), rfl⟩

/-- The temporaries between two numbers are all different. -/
theorem nodup_temporariesBetween (n m : Nat) : (temporariesBetween n m).Nodup :=
  List.Nodup.map (fun _ _ => temporary_injective) List.nodup_range'

/-- There are as many temporaries between two numbers as their difference. -/
theorem length_temporariesBetween (n m : Nat) : (temporariesBetween n m).length = m - n := by
  rw [temporariesBetween, List.length_map, List.length_range']

/-- The temporaries up to a number and those from there on are all between the first
and the last. -/
theorem temporariesBetween_append {n m l : Nat} (h : n ≤ m) (h' : m ≤ l) :
    temporariesBetween n m ++ temporariesBetween m l = temporariesBetween n l := by
  have hstart : m + 1 = n + 1 + (m - n) := by omega
  have hlength : l - n = m - n + (l - m) := by omega
  rw [temporariesBetween, temporariesBetween, temporariesBetween, ← List.map_append, hlength,
    hstart, List.range'_append_1]

namespace Script

/-- The temporaries that the assignments of a script set. -/
def temporaries (s : Script π) : List String :=
  s.targets.filter isTemporary

/-- Flattening sets each temporary that it numbers once, and no other one. -/
theorem count_targets_flattenFrom {s : Script π} (h : Stmt.AllVisible s.statements) (n k : Nat) :
    (s.flattenFrom n).1.targets.count (temporary k) = within n (s.flattenFrom n).2 k := by
  have htargets := (Stmt.flattenAll_supplied s.statements n h).targets k
  rwa [List.append_nil] at htargets

/-- Flattening never lowers the count of temporaries. -/
theorem le_flattenFrom {s : Script π} (h : Stmt.AllVisible s.statements) (n : Nat) :
    n ≤ (s.flattenFrom n).2 :=
  (Stmt.flattenAll_supplied s.statements n h).le

/-- The temporaries of a flattened script are those that it counted. -/
theorem perm_temporaries {s : Script π} (h : Stmt.AllVisible s.statements) (n : Nat) :
    (s.flattenFrom n).1.temporaries.Perm (temporariesBetween n (s.flattenFrom n).2) := by
  rw [List.perm_iff_count]
  intro name
  by_cases htemporary : isTemporary name = true
  · rcases isTemporary_iff.mp htemporary with ⟨k, rfl⟩
    rw [temporaries, List.count_filter htemporary, count_targets_flattenFrom h, within,
      (nodup_temporariesBetween _ _).count]
    simp only [mem_temporariesBetween]
  · have hnot : ∀ names : List String, (∀ x ∈ names, isTemporary x = true) →
        names.count name = 0 := by
      intro names hnames
      exact List.count_eq_zero.mpr fun hmem => htemporary (hnames name hmem)
    rw [temporaries, hnot _ fun x hx => (List.mem_filter.mp hx).2, hnot]
    intro x hx
    rcases List.mem_map.mp hx with ⟨k, _, rfl⟩
    exact isTemporary_temporary k

end Script

/-! ### Sessions that are ready -/

namespace Session

/-- The temporaries that an answer introduces. -/
def Answer.temporaries : Answer → List String
  | .flattened script => script.temporaries
  | .expressed _ => []

/-- An answer with the numbers of its temporaries increased; what is expressed stays as it
is. -/
def Answer.renumber (n : Nat) : Answer → Answer
  | .flattened script => .flattened (script.renumber n)
  | .expressed result => .expressed result

/-- The temporaries that answers introduce, in order. -/
def introduced (answers : List Answer) : List String :=
  answers.flatMap Answer.temporaries

/-- The session after some requests. -/
def after (session : Session) : List Request → Session
  | [] => session
  | request :: rest => (session.answer request).2.after rest

/-- The session between two scripts, after `n` temporaries. -/
def ready (n : Nat) : Session :=
  ⟨n, .start⟩

/-- A session starts ready, without temporaries. -/
theorem start_eq : start = ready 0 :=
  rfl

theorem run_cons (session : Session) (request : Request) (rest : List Request) :
    session.run (request :: rest) =
      (session.answer request).1 :: (session.answer request).2.run rest :=
  rfl

/-- Requests are answered in turn, the later ones from where the earlier ones leave
the session. -/
theorem run_append (session : Session) (requests requests' : List Request) :
    session.run (requests ++ requests') =
      session.run requests ++ (session.after requests).run requests' := by
  induction requests generalizing session with
  | nil => rfl
  | cons request rest ih =>
      rw [List.cons_append, run_cons, run_cons, after, ih, List.cons_append]

/-- Every request is answered. -/
theorem length_run (session : Session) (requests : List Request) :
    (session.run requests).length = requests.length := by
  induction requests generalizing session with
  | nil => rfl
  | cons request rest ih =>
      rw [run_cons, List.length_cons, List.length_cons, ih]

/-- A session that is ready flattens a script and is ready again, after its temporaries. -/
theorem answer_flatten (n : Nat) (script : Script Span) :
    (ready n).answer (.flatten script) =
      (.flattened (script.flattenFrom n).1, ready (script.flattenFrom n).2) :=
  rfl

/-- A session that is ready expresses a script as it would be expressed alone, and is ready
again. -/
theorem answer_express (n : Nat) (script : Script Span) :
    (ready n).answer (.express script) = (.expressed script.express, ready n) := by
  rw [answer, express, ready, Translator.express_start]
  rfl

/-- A request to flatten asks for a script without temporaries. -/
def Request.Visible : Request → Prop
  | .flatten script => Stmt.AllVisible script.statements
  | .express _ => True

/-- The answer of a session that is ready, and what it counts. -/
theorem exists_answer {request : Request} (h : request.Visible) (n : Nat) :
    ∃ m, n ≤ m ∧
      (ready n).answer request = ((start.answer request).1.renumber n, ready m) ∧
      ((ready n).answer request).1.temporaries.Perm (temporariesBetween n m) := by
  cases request with
  | flatten script =>
      have hadd := Script.flattenFrom_add h 0 n
      rw [Nat.zero_add] at hadd
      refine ⟨(script.flattenFrom n).2, Script.le_flattenFrom h n, ?_, ?_⟩
      · rw [answer_flatten, start_eq, answer_flatten, hadd]
        rfl
      · exact Script.perm_temporaries h n
  | express script =>
      refine ⟨n, Nat.le_refl n, ?_, ?_⟩
      · rw [answer_express, start_eq, answer_express]
        rfl
      · rw [answer_express, temporariesBetween, Nat.sub_self]
        exact List.Perm.refl []

/-- After any requests a session is ready again, and the temporaries that its answers
introduce are those that it counted. -/
theorem exists_after {requests : List Request} (h : ∀ request ∈ requests, request.Visible)
    (n : Nat) :
    ∃ m, n ≤ m ∧ (ready n).after requests = ready m ∧
      (introduced ((ready n).run requests)).Perm (temporariesBetween n m) := by
  induction requests generalizing n with
  | nil =>
      refine ⟨n, Nat.le_refl n, rfl, ?_⟩
      rw [temporariesBetween, Nat.sub_self]
      exact List.Perm.refl []
  | cons request rest ih =>
      rcases List.forall_mem_cons.mp h with ⟨hrequest, hrest⟩
      rcases exists_answer hrequest n with ⟨m, hle, hanswer, hperm⟩
      rcases ih hrest m with ⟨l, hle', hafter, hperm'⟩
      refine ⟨l, Nat.le_trans hle hle', ?_, ?_⟩
      · rw [after, hanswer]
        exact hafter
      · rw [run_cons, introduced, List.flatMap_cons, hanswer, ← temporariesBetween_append hle hle']
        rw [hanswer] at hperm
        exact hperm.append hperm'

/-- A script that is read has no temporaries. -/
theorem visible_of_parse {source : Source} {script : Script Span}
    (h : Script.parse source = .ok script) : Stmt.AllVisible script.statements := by
  have hnames := Script.namesIn_read source
  rw [Script.parse_eq_ok_iff.mp h] at hnames
  exact hnames.imp fun _ => isTemporary_of_beginsWithLetter

/-- Whatever a session was asked before, it answers like one that has just started: a script
is expressed alike, or has the same problems in the same order, and a script that was read is
flattened alike, with its temporaries numbered on from those of the earlier answers.  No
temporary is introduced twice. -/
theorem run_answers_as_started {requests : List Request}
    (hread : ∀ script, .flatten script ∈ requests → ∃ source, Script.parse source = .ok script) :
    (∀ before request later, requests = before ++ request :: later →
      (start.run requests)[before.length]? =
        some ((start.answer request).1.renumber (introduced (start.run before)).length)) ∧
      (introduced (start.run requests)).Nodup := by
  have hvisible : ∀ request ∈ requests, request.Visible := by
    intro request hrequest
    cases request with
    | flatten script =>
        rcases hread script hrequest with ⟨source, hparse⟩
        exact visible_of_parse hparse
    | express script => trivial
  constructor
  · rintro before request later rfl
    rcases List.forall_mem_append.mp hvisible with ⟨hbefore, hrest⟩
    have hrequest := hrest request List.mem_cons_self
    rcases exists_after hbefore 0 with ⟨m, _, hafter, hperm⟩
    rcases exists_answer hrequest m with ⟨_, _, hanswer, _⟩
    have hcount : (introduced (start.run before)).length = m := by
      rw [start_eq, hperm.length_eq, length_temporariesBetween, Nat.sub_zero]
    rw [run_append, start_eq, hafter, ← length_run (ready 0) before,
      List.getElem?_append_right (Nat.le_refl _), Nat.sub_self, run_cons, List.getElem?_cons_zero,
      hanswer, ← start_eq, hcount]
  · rcases exists_after hvisible 0 with ⟨m, _, _, hperm⟩
    exact hperm.nodup_iff.mpr (nodup_temporariesBetween 0 m)

/-- The tree of a script that is read. -/
def treeOf (text : String) : Script Span :=
  (Script.read (Utf8.encode text)).1

/-- Requests with a script in the middle that the shell cannot express. -/
def sampleRequests : List Request :=
  [.flatten (treeOf "f(len(g(x)))"), .express (treeOf "if (f(len(x, 1)) + 1) == 2 \x7b\n\x7d"),
    .flatten (treeOf "let y = len(h(len(x + 1)))")]

/-- A request that fails between two that introduce temporaries. -/
theorem run_answers_as_started_sample :
    introduced (start.run (sampleRequests.take 2)) = ["_TMP1"] ∧
      (Script.express (treeOf "if (f(len(x, 1)) + 1) == 2 \x7b\n\x7d")).isOk = false ∧
      (start.run sampleRequests)[1]? =
        some ((start.answer (.express
          (treeOf "if (f(len(x, 1)) + 1) == 2 \x7b\n\x7d"))).1.renumber 1) ∧
      (start.run sampleRequests)[2]? =
        some ((start.answer (.flatten (treeOf "let y = len(h(len(x + 1)))"))).1.renumber 1) ∧
      introduced (start.run sampleRequests) = ["_TMP1", "_TMP2", "_TMP3"] ∧
      (introduced (start.run sampleRequests)).Nodup := by
  have hread : ∀ script, .flatten script ∈ sampleRequests →
      ∃ source, Script.parse source = .ok script := by
    intro script hscript
    simp only [sampleRequests, List.mem_cons, Request.flatten.injEq, reduceCtorEq,
      List.not_mem_nil, or_false, false_or] at hscript
    rcases hscript with rfl | rfl
    · exact ⟨_, Script.parse_eq_ok_iff.mpr (Prod.ext rfl (by decide +kernel))⟩
    · exact ⟨_, Script.parse_eq_ok_iff.mpr (Prod.ext rfl (by decide +kernel))⟩
  have hone : introduced (start.run (sampleRequests.take 1)) = ["_TMP1"] := by
    decide +kernel
  have htwo : introduced (start.run (sampleRequests.take 2)) = ["_TMP1"] := by
    decide +kernel
  rcases run_answers_as_started hread with ⟨hanswers, hnodup⟩
  have hexpress := hanswers (sampleRequests.take 1) _ _ rfl
  have hflatten := hanswers (sampleRequests.take 2) _ _ rfl
  rw [hone] at hexpress
  rw [htwo] at hflatten
  exact ⟨htwo, by decide +kernel, hexpress, hflatten, by decide +kernel, hnodup⟩

end Session
end Shellward
