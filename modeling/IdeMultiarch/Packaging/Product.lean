import IdeMultiarch.Packaging.Tar

/-!
# Packaging - products and architectures

The two enumerations of the build, with the names that the packaging takes from them.
-/

namespace IdeMultiarch
namespace Packaging

/-- {lit}`Arch` -/
inductive Arch
  | X86_64
  | AARCH64
  | RISCV64
  | LOONGARCH64
  | UNKNOWN
deriving DecidableEq, Repr

/-- {lit}`Arch.normalize` -/
def Arch.normalize : Arch → Name
  | .X86_64 => str "x86_64"
  | .AARCH64 => str "aarch64"
  | .RISCV64 => str "riscv64"
  | .LOONGARCH64 => str "loongarch64"
  | .UNKNOWN => str "unknown"

/-- {lit}`Product` -/
inductive Product
  | IDEA_IC
  | IDEA_IU
  | PYCHARM
  | PYCHARM_COMMUNITY
  | WEBSTORM
  | CLION
  | GOLAND
  | RUSTROVER
  | RUBYMINE
  | PHPSTORM
deriving DecidableEq, Repr

namespace Product

/-- {lit}`isOpenSource` -/
def isOpenSource (product : Product) : Bool :=
  product == .IDEA_IC || product == .PYCHARM_COMMUNITY

/-- {lit}`getLauncherName` -/
def getLauncherName : Product → Name
  | .IDEA_IC | .IDEA_IU => str "idea"
  | .PYCHARM | .PYCHARM_COMMUNITY => str "pycharm"
  | .WEBSTORM => str "webstorm"
  | .CLION => str "clion"
  | .GOLAND => str "goland"
  | .RUSTROVER => str "rustrover"
  | .RUBYMINE => str "rubymine"
  | .PHPSTORM => str "phpstorm"

/-- {lit}`getPackageName` -/
def getPackageName : Product → Name
  | .IDEA_IC => str "intellij-idea-community"
  | .IDEA_IU => str "intellij-idea-ultimate"
  | .PYCHARM => str "pycharm"
  | .PYCHARM_COMMUNITY => str "pycharm-community"
  | .WEBSTORM => str "webstorm"
  | .CLION => str "clion"
  | .GOLAND => str "goland"
  | .RUSTROVER => str "rustrover"
  | .RUBYMINE => str "rubymine"
  | .PHPSTORM => str "phpstorm"

/-- {lit}`getFullName` -/
def getFullName : Product → Name
  | .IDEA_IC => str "IntelliJ IDEA Community Edition"
  | .IDEA_IU => str "IntelliJ IDEA Ultimate"
  | .PYCHARM => str "PyCharm"
  | .PYCHARM_COMMUNITY => str "PyCharm Community"
  | .WEBSTORM => str "WebStorm"
  | .CLION => str "CLion"
  | .GOLAND => str "GoLand"
  | .RUSTROVER => str "RustRover"
  | .RUBYMINE => str "RubyMine"
  | .PHPSTORM => str "PhpStorm"

/-- {lit}`getDescription` -/
def getDescription : Product → Name
  | .IDEA_IC => str "The IDE for Java and Kotlin enthusiasts"
  | .IDEA_IU => str "The IDE for Pro Java and Kotlin developers"
  | .PYCHARM => str "The only Python IDE you need"
  | .PYCHARM_COMMUNITY => str "The pure Python IDE"
  | .WEBSTORM => str "A JavaScript and TypeScript IDE"
  | .CLION => str "A cross-platform C and C++ IDE"
  | .GOLAND => str "An IDE for Go and Web"
  | .RUSTROVER => str "A powerful IDE for Rust"
  | .RUBYMINE => str "A Ruby and Rails IDE"
  | .PHPSTORM => str "A smart IDE for PHP and Web"

/-- {lit}`getPriority` -/
def getPriority : Product → Nat
  | .IDEA_IC | .PYCHARM_COMMUNITY => 50
  | _ => 100

/-- {lit}`getDesktopCategories` -/
def getDesktopCategories (_product : Product) : Name :=
  str "Development;Debugger;IDE;"

/-- {lit}`getDesktopKeywords` -/
def getDesktopKeywords (product : Product) : Name :=
  str "jetbrains;" ++
    match product with
    | .IDEA_IC | .IDEA_IU => str "intellij;idea;java;kotlin;scala;"
    | .PYCHARM | .PYCHARM_COMMUNITY => str "python;"
    | .WEBSTORM => str "js;javascript;typescript;html;"
    | .CLION => str "cpp;"
    | .GOLAND => str "golang;"
    | .RUSTROVER => str "rust;"
    | .RUBYMINE => str "ruby;rails;"
    | .PHPSTORM => str "php;"

end Product
end Packaging
end IdeMultiarch
