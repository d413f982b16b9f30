namespace PolicyTree

structure Environment where
  bindings : List (String × String)
  deriving DecidableEq, Repr

def Environment.get? (env : Environment) (name : String) : Option String :=
  (env.bindings.find? fun v => v.1 == name).map Prod.snd

end PolicyTree
