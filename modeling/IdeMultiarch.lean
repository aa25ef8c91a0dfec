import IdeMultiarch.FsNotifier.BufferSafety
import IdeMultiarch.FsNotifier.Coverage
import IdeMultiarch.FsNotifier.Output
import IdeMultiarch.FsNotifier.RenameRuns
import IdeMultiarch.FsNotifier.RootReports
import IdeMultiarch.FsNotifier.SkippedMounts
import IdeMultiarch.FsNotifier.StaticWalk
import IdeMultiarch.FsNotifier.TableMap
import IdeMultiarch.Launcher.DamagedFile
import IdeMultiarch.Launcher.DescriptorRewrite
import IdeMultiarch.Launcher.IdeHome
import IdeMultiarch.Launcher.JavaVmMessages
import IdeMultiarch.Launcher.Launch
import IdeMultiarch.Launcher.MacroExpansion
import IdeMultiarch.Launcher.MergedProperties
import IdeMultiarch.Launcher.NativeLibs
import IdeMultiarch.Packaging.ContainedArchives
import IdeMultiarch.Packaging.HardLinks
import IdeMultiarch.Packaging.MadeDirectories
import IdeMultiarch.Packaging.OpenHelper
import IdeMultiarch.Packaging.Pipeline
import IdeMultiarch.Packaging.Relocation
import IdeMultiarch.Pty.ExecPty
import IdeMultiarch.Restarter.Main
import IdeMultiarch.Sqlite.BackupProgress
import IdeMultiarch.Sqlite.BusyTimeout
import IdeMultiarch.Sqlite.HandlerRuns
import IdeMultiarch.Sqlite.Statements
