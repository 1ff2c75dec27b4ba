import Siebog.Interaction.MessageText

/-!
# Messages between Jason agents

A message of a Jason agent goes out as a FIPA ACL message and is turned back when its receiver looks
at its mail. Three illocutionary forces have a performative of their own, six are named in a user
argument, and any other text is taken for the name of a performative.

`getIlForce_createForIlForce_iff` says which forces are kept on the way, and `message_kept_iff` which
messages are: a text is not, it arrives as a term; a message without content does not arrive.
-/

set_option autoImplicit false

namespace Siebog.Jasonee.JasonMessage

open Siebog.Lib Siebog.Lib.Utf16 Siebog.Agents
open Siebog.Interaction.MessageText (ACLMessage Performative Value toUpper)

section Model

/-- The content of a message: a term, a text, or an object of any other kind. -/
inductive Content (Term Obj : Type) where
  | term (t : Term)
  | string (s : Text)
  | object (o : Obj)

/-- A message of a Jason agent. -/
structure Message (Term Obj : Type) where
  ilForce : Text
  sender : Text
  receiver : Option Text
  propCont : Option (Content Term Obj)
  msgId : Option Text
  inReplyTo : Option Text

/-- An ACL message with its content object. -/
structure Mail (Term Obj : Type) extends ACLMessage where
  contentObj : Option (Content Term Obj)

/-- What the translation uses of other code: the parser of terms, whose exception is `none`, the
text of a term, the term that stands for a text, and the upper case of a text. -/
structure Library (Term : Type) extends JSONLibrary where
  parseTerm : Text → Option Term
  termText : Term → Text
  stringTerm : Text → Term
  toUpperCase : Text → Text

/-- Texts of ASCII have the upper case of ASCII, and the fields of identifiers are kept. -/
structure Library.Faithful {Term : Type} (lib : Library Term) : Prop where
  fields : lib.toJSONLibrary.Faithful
  toUpperCase : ∀ t : Text, (∀ u ∈ t, u < 128) → lib.toUpperCase t = t.map toUpper

/-! ## Illocutionary forces -/

def KQML_PERFORMATIVE : Text := text "kqml-performative"

/-- The forces that are named in a user argument. -/
def named : List Text :=
  [text "untell", text "unachieve", text "askAll", text "askHow", text "tellHow",
    text "untellHow"]

/-- `none` is the exception for a name that no performative has. -/
def createForIlForce (toUpperCase : Text → Text) (ilForce : Text) : Option ACLMessage :=
  if ilForce = text "tell" then some (.ofPerformative (some .INFORM))
  else if ilForce = text "askOne" then some (.ofPerformative (some .QUERY_REF))
  else if ilForce = text "achieve" then some (.ofPerformative (some .REQUEST))
  else if ilForce ∈ named then
    some { ACLMessage.ofPerformative (some .INFORM_REF) with
      userArgs := FlatMap.put ∅ KQML_PERFORMATIVE (some (.text ilForce)) }
  else (Performative.valueOf (toUpperCase ilForce)).map fun p => .ofPerformative (some p)

/-- The name of a performative in lower case. -/
def lowerName (p : Performative) : Text :=
  (p.name.map JSONObject.toLower).map fun u => if u = unit '-' then unit '_' else u

/-- `none` is an exception: a missing performative, or a user argument that is no text. -/
def getIlForce (acl : ACLMessage) : Option Text :=
  match acl.performative with
  | none => none
  | some .INFORM => some (text "tell")
  | some .QUERY_REF => some (text "askOne")
  | some .REQUEST => some (text "achieve")
  | some .INFORM_REF =>
    match acl.userArgs.lookup KQML_PERFORMATIVE with
    | some (.text kp) => some kp
    -- a value that is no text makes the cast throw
    | some _ => none
    -- without the argument the performative stands for itself
    | none => some (lowerName .INFORM_REF)
  | some p => some (lowerName p)

/-! ## Messages -/

variable {Term Obj : Type} (lib : Library Term)

/-- `new AID(str)`; `none` is its exception. -/
def readAid (str : Text) : Option AID := (AID.constructor lib.toJSONLibrary str).toOption

/-- `none` is an exception. -/
def toAclMessage (jmsg : Message Term Obj) : Option (Mail Term Obj) := do
  let acl ← createForIlForce lib.toUpperCase jmsg.ilForce
  let sender ← readAid lib jmsg.sender
  let receivers ← jmsg.receiver.toList.mapM (readAid lib)
  return { acl with
    sender := some sender
    receivers := receivers
    content :=
      match jmsg.propCont with
      | some (.term t) => some (lib.termText t)
      | some (.string s) => some s
      | _ => none
    contentObj :=
      match jmsg.propCont with
      | some (.object o) => some (.object o)
      | _ => none
    replyWith := jmsg.msgId
    language := some (text "AgentSpeak")
    inReplyTo := jmsg.inReplyTo }

/-- A text that is no term stays a text in an object, and becomes a term for it otherwise. -/
def getJasonContent (acl : Mail Term Obj) : Option (Content Term Obj) :=
  match acl.contentObj, acl.content with
  | some (.string s), _ => some ((lib.parseTerm s).elim (.string s) .term)
  | some content, _ => some content
  | none, some s => some (.term ((lib.parseTerm s).getD (lib.stringTerm s)))
  | none, none => none

/-- What the agent with the text `me` puts into its mail box for an ACL message, if anything. The
outer `none` is an exception. -/
def checkMail (me : Text) (acl : Mail Term Obj) : Option (Option (Message Term Obj)) := do
  let ilForce ← getIlForce acl.toACLMessage
  let sender ← acl.sender
  return (getJasonContent lib acl).map fun content =>
    { ilForce := ilForce
      sender := sender.toString lib.toJSONLibrary
      receiver := some me
      propCont := some content
      msgId := acl.replyWith
      inReplyTo := acl.inReplyTo }

end Model

/-! ## The forces that are kept -/

section Forces

/-- The forces of Jason, and the performatives that do not stand for one of them. -/
def IsIlForce (ilForce : Text) : Prop :=
  ilForce ∈ [text "tell", text "askOne", text "achieve"] ++ named ∨
    ∃ p : Performative, p ∉ [.INFORM, .QUERY_REF, .REQUEST] ∧ ilForce = lowerName p

theorem ascii_lowerName (p : Performative) : ∀ u ∈ lowerName p, u < 128 := by
  have hall : (lowerName p).all (fun u => decide (u < 128)) = true := by
    cases p <;> decide
  intro u hu
  exact of_decide_eq_true (List.all_eq_true.1 hall u hu)

theorem valueOf_lowerName (p : Performative) :
    Performative.valueOf ((lowerName p).map toUpper) = some p := by
  cases p <;> rfl

theorem getIlForce_ofPerformative {p : Performative}
    (hp : p ∉ [Performative.INFORM, .QUERY_REF, .REQUEST]) :
    getIlForce (.ofPerformative (some p)) = some (lowerName p) := by
  cases p with
  | INFORM => exact absurd (by decide) hp
  | QUERY_REF => exact absurd (by decide) hp
  | REQUEST => exact absurd (by decide) hp
  | _ => rfl

theorem getIlForce_named (ilForce : Text) :
    getIlForce { ACLMessage.ofPerformative (some .INFORM_REF) with
      userArgs := FlatMap.put ∅ KQML_PERFORMATIVE (some (.text ilForce)) } = some ilForce := by
  simp only [getIlForce, ACLMessage.ofPerformative, FlatMap.lookup_put_self]

variable {toUpperCase : Text → Text}

/-- The forces that come back as they were. -/
theorem getIlForce_createForIlForce_iff
    (hupper : ∀ t : Text, (∀ u ∈ t, u < 128) → toUpperCase t = t.map toUpper) (ilForce : Text) :
    (createForIlForce toUpperCase ilForce).bind getIlForce = some ilForce ↔
      IsIlForce ilForce := by
  have hread : ∀ p, Performative.valueOf (toUpperCase (lowerName p)) = some p := by
    intro p
    rw [hupper _ (ascii_lowerName p), valueOf_lowerName]
  unfold createForIlForce
  split_ifs with htell hask hachieve hnamed
  · subst htell
    exact iff_of_true rfl (.inl (by decide))
  · subst hask
    exact iff_of_true rfl (.inl (by decide))
  · subst hachieve
    exact iff_of_true rfl (.inl (by decide))
  · exact iff_of_true (getIlForce_named ilForce) (.inl (List.mem_append_right _ hnamed))
  · have hnone : ilForce ∉ [text "tell", text "askOne", text "achieve"] ++ named := by
      simp [htell, hask, hachieve, hnamed]
    rw [IsIlForce, or_iff_right hnone]
    constructor
    · intro hkept
      obtain ⟨acl, hacl, hforce⟩ := Option.bind_eq_some_iff.1 hkept
      obtain ⟨p, -, rfl⟩ := Option.map_eq_some_iff.1 hacl
      have hp : p ∉ [Performative.INFORM, .QUERY_REF, .REQUEST] := by
        intro hmem
        -- these three come back as forces that are not taken for names
        simp only [List.mem_cons, List.not_mem_nil, or_false] at hmem
        rcases hmem with rfl | rfl | rfl
        · exact htell (Option.some.inj hforce).symm
        · exact hask (Option.some.inj hforce).symm
        · exact hachieve (Option.some.inj hforce).symm
      rw [getIlForce_ofPerformative hp, Option.some.injEq] at hforce
      exact ⟨p, hp, hforce.symm⟩
    · rintro ⟨p, hp, rfl⟩
      rw [hread]
      exact getIlForce_ofPerformative hp

end Forces

/-! ## The messages that are kept -/

section Messages

variable {Term Obj : Type} (lib : Library Term)

/-- What the content of a message is when it arrives: a text is read as a term, or stands for one. -/
def arrived : Option (Content Term Obj) → Option (Content Term Obj)
  | some (.term t) => some (.term ((lib.parseTerm (lib.termText t)).getD
      (lib.stringTerm (lib.termText t))))
  | some (.string s) => some (.term ((lib.parseTerm s).getD (lib.stringTerm s)))
  | some (.object o) => some (.object o)
  | none => none

/-- A term has to be the one that its text is read as; a text is no text any more. -/
def ContentKept : Option (Content Term Obj) → Prop
  | some (.term t) =>
    (lib.parseTerm (lib.termText t)).getD (lib.stringTerm (lib.termText t)) = t
  | some (.object _) => True
  | _ => False

theorem arrived_eq_iff (propCont : Option (Content Term Obj)) :
    (∃ content, propCont = some content ∧ arrived lib propCont = some content) ↔
      ContentKept lib propCont := by
  cases propCont with
  | none => simp [ContentKept]
  | some content =>
      cases content with
      | term t => simp [arrived, ContentKept]
      | string s => simp [arrived, ContentKept]
      | object o => simp [arrived, ContentKept]

/-- What becomes of a message on its way: of its force, of the text of its sender and of its
content. -/
theorem received_eq (jmsg : Message Term Obj) (me : Text) :
    (toAclMessage lib jmsg).bind (checkMail lib me) =
      ((createForIlForce lib.toUpperCase jmsg.ilForce).bind getIlForce).bind fun ilForce =>
        (readAid lib jmsg.sender).bind fun sender =>
          (jmsg.receiver.toList.mapM (readAid lib)).bind fun _ =>
            some ((arrived lib jmsg.propCont).map fun content =>
              { ilForce := ilForce
                sender := sender.toString lib.toJSONLibrary
                receiver := some me
                propCont := some content
                msgId := jmsg.msgId
                inReplyTo := jmsg.inReplyTo }) := by
  unfold toAclMessage
  cases hforce : createForIlForce lib.toUpperCase jmsg.ilForce with
  | none => rfl
  | some acl =>
      cases hsender : readAid lib jmsg.sender with
      | none => cases hname : getIlForce acl <;> simp [hname]
      | some sender =>
          cases hreceivers : jmsg.receiver.toList.mapM (readAid lib) with
          | none => cases hname : getIlForce acl <;> simp [hname]
          | some receivers =>
              simp only [Option.bind_eq_bind, Option.bind_some, Option.pure_def, checkMail]
              -- the force is read from the performative and the user arguments alone
              show (getIlForce acl).bind _ = _
              cases getIlForce acl with
              | none => rfl
              | some ilForce =>
                  cases jmsg.propCont with
                  | none => rfl
                  | some content => cases content <;> rfl

/-- Exactly these messages reach the mail box of the receiver as they were sent: their force is one
of Jason or the name of a performative that stands for none of these, the text of their sender is
that of the identifier it is read as, their receiver is one, and their content is a term that is
read back, or an object. -/
theorem message_kept_iff (h : lib.Faithful) (jmsg : Message Term Obj) (me : Text) :
    (toAclMessage lib jmsg).bind (checkMail lib me) =
        some (some { jmsg with receiver := some me }) ↔
      IsIlForce jmsg.ilForce ∧
        (∃ sender, readAid lib jmsg.sender = some sender ∧
          sender.toString lib.toJSONLibrary = jmsg.sender) ∧
        (∀ receiver, jmsg.receiver = some receiver → (readAid lib receiver).isSome) ∧
        ContentKept lib jmsg.propCont := by
  -- the list of receivers has one identifier at most
  have hreceivers : (∃ receivers, jmsg.receiver.toList.mapM (readAid lib) = some receivers) ↔
      ∀ receiver, jmsg.receiver = some receiver → (readAid lib receiver).isSome := by
    cases jmsg.receiver with
    | none => simp
    | some receiver =>
        cases hread : readAid lib receiver <;> simp [hread]
  rw [received_eq, ← getIlForce_createForIlForce_iff h.toUpperCase, ← hreceivers,
    ← arrived_eq_iff]
  constructor
  · intro hkept
    obtain ⟨ilForce, hforce, hkept⟩ := Option.bind_eq_some_iff.1 hkept
    obtain ⟨sender, hsender, hkept⟩ := Option.bind_eq_some_iff.1 hkept
    obtain ⟨receivers, hread, hkept⟩ := Option.bind_eq_some_iff.1 hkept
    rw [Option.some.injEq, Option.map_eq_some_iff] at hkept
    obtain ⟨content, harrived, heq⟩ := hkept
    rw [Message.mk.injEq] at heq
    obtain ⟨rfl, htext, -, hcontent, -⟩ := heq
    exact ⟨hforce, ⟨sender, hsender, htext⟩, ⟨receivers, hread⟩, content, hcontent.symm, harrived⟩
  · rintro ⟨hforce, ⟨sender, hsender, htext⟩, ⟨receivers, hread⟩, content, hcontent, harrived⟩
    rw [hforce, hsender, hread, harrived]
    simp only [Option.bind_some, Option.map_some, htext, hcontent]

/-- The text of an agent that is read back as it was is such a sender. -/
theorem readAid_toString {aid : AID} (haid : AID.RoundTrip lib.toJSONLibrary aid) :
    ∃ read, readAid lib (aid.toString lib.toJSONLibrary) = some read ∧
      read.toString lib.toJSONLibrary = aid.toString lib.toJSONLibrary := by
  obtain ⟨read, hread, -, hname, hhost, hstr, hclass⟩ := haid
  refine ⟨read, ?_, ?_⟩
  · rw [readAid, hread]
    rfl
  · obtain ⟨hmodule, hejbName⟩ := AgentClass.equals_iff.1 hclass
    rw [AID.toString, AID.toString, AID.fields, AID.fields, AgentClass.equals, AgentClass.equals,
      AgentClass.toString, AgentClass.toString, hname, hhost, hstr, hmodule, hejbName]

/-- Texts that are not empty as terms, with the upper case of ASCII. -/
def plainTerms : Library Text where
  toJSONLibrary := plainJson
  parseTerm s := if s = [] then none else some s
  termText t := t
  stringTerm s := unit '"' :: (s ++ [unit '"'])
  toUpperCase t := t.map toUpper

theorem plainTerms_faithful : plainTerms.Faithful := ⟨plainJson_faithful, fun _ _ => rfl⟩

/-- An agent asks another how to reach a goal. -/
def askHow : Message Text Unit where
  ilForce := text "askHow"
  sender := (AID.ofName (text "bob") (AgentClass.forSiebogEjb (text "JasonEEAgent"))).toString
    plainJson
  receiver := none
  propCont := some (.term (text "open(door)"))
  msgId := some (text "mid1")
  inReplyTo := none

theorem message_kept_iff_askHow :
    (toAclMessage plainTerms askHow).bind (checkMail plainTerms (text "alice")) =
      some (some { askHow with receiver := some (text "alice") }) := by
  have hbob : AID.RoundTrip plainJson
      (AID.ofName (text "bob") (AgentClass.forSiebogEjb (text "JasonEEAgent"))) := by
    refine (AID.roundTrip_host_iff plainJson plainJson_faithful _ _ _).2 (.inr ?_)
    refine (AgentClass.constructor_toString_iff plainJson _).2 ?_
    rw [if_neg (by decide)]
    exact ⟨by decide, by decide, by decide⟩
  refine (message_kept_iff plainTerms plainTerms_faithful askHow _).2
    ⟨.inl (by decide), readAid_toString plainTerms hbob, fun receiver h => ?_, rfl⟩
  cases h

end Messages

end Siebog.Jasonee.JasonMessage
