import SymbolTrees.Command
import SymbolTrees.CommandLine.Program
import SymbolTrees.Main
import SymbolTrees.Proofs.CommandLine
import SymbolTrees.Proofs.Entries
import SymbolTrees.Proofs.History
import SymbolTrees.Proofs.Rendering
import SymbolTrees.Proofs.Session.Confluence
import SymbolTrees.Proofs.Session.Disambiguation
import SymbolTrees.Proofs.Session.Dispatch
import SymbolTrees.Proofs.Session.Echo
import SymbolTrees.Proofs.Session.Focusing
import SymbolTrees.Proofs.Session.Following
import SymbolTrees.Proofs.Session.Isolation
import SymbolTrees.Proofs.Session.Levels
import SymbolTrees.Proofs.Session.Printout
import SymbolTrees.Proofs.Session.Pumping
import SymbolTrees.Proofs.Session.Recent
import SymbolTrees.Proofs.Session.Rejection
import SymbolTrees.Proofs.Session.Settling
import SymbolTrees.Proofs.Session.Silence
import SymbolTrees.Proofs.Session.Tables
import SymbolTrees.Proofs.Saving
import SymbolTrees.Proofs.Uri
import SymbolTrees.Proofs.Workspace
